import Tornet.Raw.Format

/-! What the formats have for a value, and what is unpacked from it: the round trip of `pack_vec` and `unpack_vec`. -/
namespace Tornet.Raw
open Library

/-- What a format does: the bytes it packs a value to, and the value that is unpacked from them. Where a value does not
`Fit`, a string is cut short; where it is not `Kept`, another value is unpacked. -/
structure Meaning (α : Type) where
  packed : α → Bytes
  readBack : α → α
  Fits : α → Prop
  Kept : α → Prop

namespace Meaning
variable {α β : Type}

def unsignedInt : Meaning (BitVec 32) where
  packed v := Varint.encode v.toNat
  readBack v := v
  Fits _ := True
  Kept _ := True

def signedInt : Meaning (BitVec 32) where
  packed v := Varint.encode (zigzag v).toNat
  readBack := flipped
  Fits _ := True
  Kept := Narrow

def bool : Meaning Bool where
  packed v := [if v then 1 else 0]
  readBack v := v
  Fits _ := True
  Kept _ := True

/-- A string or a vector of `char`: its length has 32 bits. -/
def bytes : Meaning Bytes where
  packed v := Varint.encode (v.length % 2 ^ 32) ++ v
  readBack v := v
  Fits v := v.length < 2 ^ 32
  Kept _ := True

def optional (M : Meaning α) : Meaning (Option α) where
  packed v := bool.packed v.isSome ++ v.toList.flatMap M.packed
  readBack v := v.map M.readBack
  Fits v := ∀ x ∈ v, M.Fits x
  Kept v := ∀ x ∈ v, M.Kept x

def pair (M : Meaning α) (N : Meaning β) : Meaning (α × β) where
  packed val := M.packed val.1 ++ N.packed val.2
  readBack := Prod.map M.readBack N.readBack
  Fits val := M.Fits val.1 ∧ N.Fits val.2
  Kept val := M.Kept val.1 ∧ N.Kept val.2

def packedEach (M : Meaning α) (value : List α) : Bytes :=
  Varint.encode (value.length % 2 ^ 32) ++ value.flatMap M.packed

def sequence (M : Meaning α) : Meaning (List α) where
  packed := M.packedEach
  readBack value := value.map M.readBack
  Fits value := ∀ x ∈ value, M.Fits x
  Kept value := ∀ x ∈ value, M.Kept x

/-- What is unpacked for an element is an element as well. -/
def set [LinearOrder α] (M : Meaning α) : Meaning (SortedSet α) where
  packed value := M.packedEach value.keys
  readBack := SortedMap.mapEntries M.readBack id
  Fits value := ∀ k ∈ value.keys, M.Fits k
  Kept value := ∀ k ∈ value.keys, M.readBack k ∈ value.keys

def map [LinearOrder α] (M : Meaning α) (N : Meaning β) : Meaning (SortedMap α β) where
  packed value := (M.pair N).packedEach value.entries
  readBack := SortedMap.mapEntries M.readBack N.readBack
  Fits value := ∀ e ∈ value.entries, (M.pair N).Fits e
  Kept value := ∀ e ∈ value.entries, (M.pair N).readBack e ∈ value.entries

end Meaning

def Ty.meaning : (t : Ty) → Meaning t.Value
  | .signedInt => .signedInt
  | .unsignedInt => .unsignedInt
  | .bool => .bool
  | .string => .bytes
  | .bytes => .bytes
  | .optional t => t.meaning.optional
  | .pair t u => t.meaning.pair u.meaning
  | .set t => t.meaning.set
  | .map key value => key.meaning.map value.meaning
  | .sequence t => t.meaning.sequence

/-- A format does what its meaning says. -/
structure Lawful {α : Type} (F : Format α) (M : Meaning α) : Prop where
  pack_eq {σ : Type} [Sink σ] [LawfulSink σ] (v : α) (s : σ) (h : M.Fits v) : F.pack v s = putAll (M.packed v) s
  packed_pos (v : α) : 0 < (M.packed v).length
  fits_of_short (v : α) (h : (M.packed v).length < 2 ^ 32) : M.Fits v
  fits_fresh : M.Fits F.fresh
  fits_unpack {input rest : Bytes} {x y : α} (hx : M.Fits x) (h : F.unpack input x = some (y, rest)) : M.Fits y
  unpack_packed (v : α) (rest : Bytes) (h : (M.packed v).length < 2 ^ 32) :
    F.unpack (M.packed v ++ rest) F.fresh = some (M.readBack v, rest)
  injective : Function.Injective M.readBack
  kept_iff (v : α) : M.Kept v ↔ M.readBack v = v

namespace Lawful
variable {α β : Type} {σ : Type} [Sink σ] [LawfulSink σ]

theorem encode_pos (n : Nat) : 0 < (Varint.encode n).length := by
  by_cases h : n < 128
  · rw [Varint.encode_of_lt h]
    exact Nat.one_pos
  · rw [Varint.encode_of_ge (by omega)]
    exact Nat.succ_pos _

theorem unsignedInt : Lawful .unsignedInt .unsignedInt where
  pack_eq v s _ := by
    have hwide : (v.setWidth 64).toNat = v.toNat := BitVec.toNat_setWidth_of_le (by decide)
    exact (putGroups_eq _ s).trans (by rw [hwide]; rfl)
  packed_pos v := encode_pos _
  fits_of_short _ _ := trivial
  fits_fresh := trivial
  fits_unpack _ _ := trivial
  unpack_packed v rest _ := getGroups_putGroups v rest
  injective := Function.injective_id
  kept_iff v := iff_of_true trivial rfl

theorem signedInt : Lawful .signedInt .signedInt where
  pack_eq v s _ := putGroups_eq _ s
  packed_pos v := encode_pos _
  fits_of_short _ _ := trivial
  fits_fresh := trivial
  fits_unpack _ _ := trivial
  unpack_packed v rest _ := by
    rw [Format.signedInt]
    simp only [Meaning.signedInt, getGroups_putGroups, Option.bind_eq_bind, Option.bind_some, unzigzag_zigzag]
  injective := Function.Involutive.injective flipped_flipped
  kept_iff v := (flipped_eq_self v).symm

theorem bool : Lawful .bool .bool where
  pack_eq v s _ := LawfulSink.write_eq [if v then 1 else 0] s (by rw [List.length_singleton]; decide)
  packed_pos v := Nat.one_pos
  fits_of_short _ _ := trivial
  fits_fresh := trivial
  fits_unpack _ _ := trivial
  unpack_packed v rest _ := by
    have hread : read 1 ([if v then 1 else 0] ++ rest) = some ([if v then 1 else 0], rest) :=
      read_append rest (by rw [List.length_singleton]; decide)
    change (read 1 ([if v then 1 else 0] ++ rest)).bind _ = _
    rw [hread]
    cases v with
    | false => rfl
    | true => rfl
  injective := Function.injective_id
  kept_iff v := iff_of_true trivial rfl

/-- The number of elements, or of bytes, that is read back. -/
theorem unpack_count {n : Nat} (rest : Bytes) :
    Format.unsignedInt.unpack (Varint.encode (n % 2 ^ 32) ++ rest) 0 = some (BitVec.ofNat 32 n, rest) := by
  rw [← BitVec.toNat_ofNat]
  exact getGroups_putGroups _ rest

private theorem pack_count (n : Nat) (s : σ) :
    Format.unsignedInt.pack (BitVec.ofNat 32 n) s = putAll (Varint.encode (n % 2 ^ 32)) s := by
  rw [unsignedInt.pack_eq _ s trivial, ← BitVec.toNat_ofNat]
  rfl

theorem bytes : Lawful .bytes .bytes where
  pack_eq v s h := by
    change (Format.unsignedInt.pack (BitVec.ofNat 32 v.length) s).bind _ = _
    rw [pack_count, Meaning.bytes, putAll_append]
    apply congrArg (Option.bind _)
    funext s
    split_ifs with hsome
    · exact LawfulSink.write_eq v s h
    · rw [List.length_eq_zero_iff.1 (not_not.1 hsome), putAll_nil]
  packed_pos v := by
    rw [Meaning.bytes, List.length_append]
    exact Nat.add_pos_left (encode_pos _) _
  fits_of_short v h := by
    simp only [Meaning.bytes, List.length_append] at h ⊢
    omega
  fits_fresh := by simp [Meaning.bytes, Format.bytes]
  fits_unpack := by
    intro input rest x y _ h
    change y.length < 2 ^ 32
    obtain ⟨⟨size, tail⟩, -, h⟩ := Option.bind_eq_some_iff.1 h
    simp only at h
    split_ifs at h
    · rw [length_read h]
      exact size.isLt
    · obtain ⟨rfl, -⟩ := Prod.mk.inj (Option.some.inj h)
      decide
  unpack_packed v rest h := by
    have hlen : v.length < 2 ^ 32 := by
      rw [Meaning.bytes, List.length_append] at h
      omega
    change (Format.unsignedInt.unpack (Varint.encode (v.length % 2 ^ 32) ++ v ++ rest) 0).bind _ = _
    rw [List.append_assoc, unpack_count, Option.bind_some]
    simp only
    split_ifs with hsome
    · exact read_append rest hlen
    · have hzero := congrArg BitVec.toNat (not_not.1 hsome)
      rw [BitVec.toNat_ofNat, Nat.mod_eq_of_lt hlen] at hzero
      rw [List.length_eq_zero_iff.1 hzero]
      rfl
  injective := Function.injective_id
  kept_iff v := iff_of_true trivial rfl

theorem string : Lawful .string .bytes where
  pack_eq := bytes.pack_eq
  packed_pos := bytes.packed_pos
  fits_of_short := bytes.fits_of_short
  fits_fresh := bytes.fits_fresh
  fits_unpack _ h := bytes.fits_unpack bytes.fits_fresh h
  unpack_packed := bytes.unpack_packed
  injective := bytes.injective
  kept_iff := bytes.kept_iff

/-! ### Compound values -/

variable {F : Format α} {G : Format β} {M : Meaning α} {N : Meaning β}

theorem optional (hF : Lawful F M) : Lawful F.optional M.optional where
  pack_eq v s h := by
    change (Format.bool.pack v.isSome s).bind _ = _
    rw [bool.pack_eq _ s trivial, Meaning.optional, putAll_append]
    apply congrArg (Option.bind _)
    funext s
    cases v with
    | none => rfl
    | some x =>
      rw [Option.toList_some, List.flatMap_singleton]
      exact hF.pack_eq x s (h x rfl)
  packed_pos v := Nat.succ_pos _
  fits_of_short v h := by
    rintro x rfl
    apply hF.fits_of_short
    simp only [Meaning.optional, Option.toList_some, List.flatMap_singleton, List.length_append] at h
    omega
  fits_fresh := nofun
  fits_unpack := by
    rintro input rest x y hx h z rfl
    obtain ⟨⟨b, tail⟩, -, h⟩ := Option.bind_eq_some_iff.1 h
    simp only at h
    split_ifs at h
    · obtain ⟨⟨a, tail⟩, ha, h⟩ := Option.bind_eq_some_iff.1 h
      obtain ⟨h, -⟩ := Prod.mk.inj (Option.some.inj h)
      obtain rfl := Option.some.inj h
      exact hF.fits_unpack hF.fits_fresh ha
    · obtain ⟨rfl, -⟩ := Prod.mk.inj (Option.some.inj h)
      exact hx z rfl
  unpack_packed v rest h := by
    change (Format.bool.unpack (Meaning.bool.packed v.isSome ++ v.toList.flatMap M.packed ++ rest) false).bind _ = _
    have hbool : Format.bool.unpack (Meaning.bool.packed v.isSome ++ (v.toList.flatMap M.packed ++ rest)) false = _ :=
      bool.unpack_packed v.isSome _ (Nat.one_lt_two_pow (by decide))
    rw [List.append_assoc, hbool, Option.bind_some]
    cases v with
    | none => rfl
    | some x =>
      have hx : (M.packed x).length < 2 ^ 32 := by
        simp only [Meaning.optional, Option.toList_some, List.flatMap_singleton, List.length_append] at h
        omega
      rw [Option.toList_some, List.flatMap_singleton]
      change (F.unpack (M.packed x ++ rest) F.fresh).bind _ = _
      rw [hF.unpack_packed x rest hx]
      rfl
  injective := Option.map_injective hF.injective
  kept_iff v := by
    cases v with
    | none => exact iff_of_true nofun rfl
    | some x =>
      have hx : M.optional.readBack (some x) = some x ↔ M.readBack x = x := Option.some_inj
      rw [hx, ← hF.kept_iff]
      exact ⟨fun h => h x rfl, fun h y hy => Option.some.inj hy ▸ h⟩

theorem pair (hF : Lawful F M) (hG : Lawful G N) : Lawful (F.pair G) (M.pair N) where
  pack_eq val s h := by
    change (F.pack val.1 s).bind _ = _
    rw [hF.pack_eq _ s h.1, Meaning.pair, putAll_append]
    apply congrArg (Option.bind _)
    funext s
    exact hG.pack_eq _ s h.2
  packed_pos val := by
    rw [Meaning.pair, List.length_append]
    exact Nat.add_pos_left (hF.packed_pos _) _
  fits_of_short val h := by
    rw [Meaning.pair, List.length_append] at h
    exact ⟨hF.fits_of_short _ (by omega), hG.fits_of_short _ (by omega)⟩
  fits_fresh := ⟨hF.fits_fresh, hG.fits_fresh⟩
  fits_unpack := by
    intro input rest x y hx h
    obtain ⟨⟨a, tail⟩, ha, h⟩ := Option.bind_eq_some_iff.1 h
    obtain ⟨⟨b, tail'⟩, hb, h⟩ := Option.bind_eq_some_iff.1 h
    obtain ⟨rfl, -⟩ := Prod.mk.inj (Option.some.inj h)
    exact ⟨hF.fits_unpack hx.1 ha, hG.fits_unpack hx.2 hb⟩
  unpack_packed val rest h := by
    rw [Meaning.pair, List.length_append] at h
    change (F.unpack (M.packed val.1 ++ N.packed val.2 ++ rest) F.fresh).bind _ = _
    rw [List.append_assoc, hF.unpack_packed _ _ (by omega), Option.bind_some]
    change (G.unpack (N.packed val.2 ++ rest) G.fresh).bind _ = _
    rw [hG.unpack_packed _ _ (by omega)]
    rfl
  injective := hF.injective.prodMap hG.injective
  kept_iff val := (and_congr (hF.kept_iff _) (hG.kept_iff _)).trans
    (Prod.ext_iff (x := (M.pair N).readBack val) (y := val)).symm

/-! ### Containers -/

theorem packEach_eq (hF : Lawful F M) (value : List α) (h : ∀ x ∈ value, M.Fits x) (s : σ) :
    F.packEach value s = putAll (M.packedEach value) s := by
  change (Format.unsignedInt.pack (BitVec.ofNat 32 value.length) s).bind _ = _
  rw [pack_count, Meaning.packedEach, putAll_append]
  apply congrArg (Option.bind _)
  funext s
  induction value generalizing s with
  | nil => rfl
  | cons x value ih =>
    obtain ⟨hx, hvalue⟩ := List.forall_mem_cons.1 h
    rw [List.foldlM_cons, List.flatMap_cons, putAll_append, hF.pack_eq x s hx]
    apply congrArg (Option.bind _)
    funext s
    exact ih hvalue s

/-- No element packs to nothing, so there are not more elements than bytes. -/
theorem length_le_packed (hF : Lawful F M) (value : List α) : value.length ≤ (value.flatMap M.packed).length := by
  induction value with
  | nil => exact le_rfl
  | cons x value ih =>
    rw [List.flatMap_cons, List.length_append, List.length_cons]
    have hpos := hF.packed_pos x
    omega

theorem packed_le_packed (M : Meaning α) {value : List α} {x : α} (hx : x ∈ value) :
    (M.packed x).length ≤ (M.packedEach value).length := by
  obtain ⟨before, after, rfl⟩ := List.append_of_mem hx
  simp only [Meaning.packedEach, List.flatMap_append, List.flatMap_cons, List.length_append]
  omega

/-- A container packed short has a number of elements that is not cut, and short elements. -/
theorem short_packedEach (hF : Lawful F M) {value : List α} (h : (M.packedEach value).length < 2 ^ 32) :
    (BitVec.ofNat 32 value.length).toNat = value.length ∧ (value.flatMap M.packed).length < 2 ^ 32 := by
  have hle := length_le_packed hF value
  rw [Meaning.packedEach, List.length_append] at h
  exact ⟨by rw [BitVec.toNat_ofNat, Nat.mod_eq_of_lt (by omega)], by omega⟩

/-- The number of elements is read back first. -/
theorem unpack_packedEach (M : Meaning α) (value : List α) (rest : Bytes) :
    Format.unsignedInt.unpack (M.packedEach value ++ rest) 0 =
      some (BitVec.ofNat 32 value.length, value.flatMap M.packed ++ rest) := by
  rw [Meaning.packedEach, List.append_assoc, unpack_count]

private theorem unpackEach_packed (hF : Lawful F M) (value : List α) (rest : Bytes)
    (h : (value.flatMap M.packed).length < 2 ^ 32) :
    F.unpackEach (List.replicate value.length F.fresh) (value.flatMap M.packed ++ rest) =
      some (value.map M.readBack, rest) := by
  induction value with
  | nil => rfl
  | cons x value ih =>
    rw [List.flatMap_cons, List.length_append] at h
    rw [List.length_cons, List.replicate_succ, List.flatMap_cons, List.append_assoc, Format.unpackEach,
      hF.unpack_packed x _ (by omega), Option.bind_eq_bind, Option.bind_some]
    simp only
    rw [ih (by omega)]
    rfl

theorem fits_unpackEach (hF : Lawful F M) {value value' : List α} {input rest : Bytes} (hvalue : ∀ x ∈ value, M.Fits x)
    (h : F.unpackEach value input = some (value', rest)) : ∀ x ∈ value', M.Fits x := by
  induction value generalizing value' input rest with
  | nil =>
    obtain ⟨rfl, -⟩ := Prod.mk.inj (Option.some.inj h)
    exact fun x hx => absurd hx List.not_mem_nil
  | cons y value ih =>
    obtain ⟨hy, hvalue⟩ := List.forall_mem_cons.1 hvalue
    obtain ⟨⟨y', tail⟩, hy', h⟩ := Option.bind_eq_some_iff.1 h
    obtain ⟨⟨value'', tail'⟩, hrest, h⟩ := Option.bind_eq_some_iff.1 h
    obtain ⟨rfl, -⟩ := Prod.mk.inj (Option.some.inj h)
    exact List.forall_mem_cons.2 ⟨hF.fits_unpack hy hy', ih hvalue hrest⟩

theorem sequence (hF : Lawful F M) : Lawful F.sequence M.sequence where
  pack_eq value s h := packEach_eq hF value h s
  packed_pos value := by
    change 0 < (M.packedEach value).length
    rw [Meaning.packedEach, List.length_append]
    exact Nat.add_pos_left (encode_pos _) _
  fits_of_short value h x hx := hF.fits_of_short x ((packed_le_packed M hx).trans_lt h)
  fits_fresh := fun x hx => absurd hx List.not_mem_nil
  fits_unpack := by
    intro input rest x y hx h
    obtain ⟨⟨size, tail⟩, -, h⟩ := Option.bind_eq_some_iff.1 h
    apply fits_unpackEach hF _ h
    intro z hz
    obtain hz | hz := List.mem_append.1 hz
    · exact hx z (List.mem_of_mem_take hz)
    · rw [List.eq_of_mem_replicate hz]
      exact hF.fits_fresh
  unpack_packed value rest h := by
    obtain ⟨hcount, hshort⟩ := short_packedEach hF h
    change (Format.unsignedInt.unpack (M.packedEach value ++ rest) 0).bind _ = _
    rw [unpack_packedEach, Option.bind_some]
    have hresize : F.resize [] value.length = List.replicate value.length F.fresh := by
      rw [Format.resize, List.take_nil, List.nil_append, List.length_nil, Nat.sub_zero]
    simp only [hcount]
    exact (congrArg (F.unpackEach · _) hresize).trans (unpackEach_packed hF value rest hshort)
  injective := List.map_injective_iff.2 hF.injective
  kept_iff value := by
    change (∀ x ∈ value, M.Kept x) ↔ value.map M.readBack = value
    conv_rhs => rw [← List.map_id value, List.map_map, List.map_inj_left]
    exact forall₂_congr fun x _ => hF.kept_iff x

private theorem unpackKeys_packed [LinearOrder α] (hF : Lawful F M) (keys : List α) (value : SortedSet α) (rest : Bytes)
    (h : (keys.flatMap M.packed).length < 2 ^ 32) :
    F.unpackKeys keys.length value (keys.flatMap M.packed ++ rest) =
      some (keys.foldl (fun value k => value.insert (M.readBack k) ()) value, rest) := by
  induction keys generalizing value with
  | nil => rfl
  | cons k keys ih =>
    rw [List.flatMap_cons, List.length_append] at h
    rw [List.length_cons, List.flatMap_cons, List.append_assoc, Format.unpackKeys, hF.unpack_packed k _ (by omega),
      Option.bind_eq_bind, Option.bind_some]
    exact ih _ (by omega)

theorem fits_unpackKeys [LinearOrder α] (hF : Lawful F M) {n : Nat} {value value' : SortedSet α} {input rest : Bytes}
    (hvalue : M.set.Fits value) (h : F.unpackKeys n value input = some (value', rest)) : M.set.Fits value' := by
  induction n generalizing value input with
  | zero =>
    obtain ⟨rfl, -⟩ := Prod.mk.inj (Option.some.inj h)
    exact hvalue
  | succ n ih =>
    obtain ⟨⟨k, tail⟩, hk, h⟩ := Option.bind_eq_some_iff.1 h
    apply ih _ h
    intro k' hk'
    rw [SortedMap.keys_insert, mem_insertKey] at hk'
    obtain rfl | hk' := hk'
    · exact hF.fits_unpack hF.fits_fresh hk
    · exact hvalue k' hk'

theorem set [LinearOrder α] (hF : Lawful F M) : Lawful F.set M.set where
  pack_eq value s h := packEach_eq hF value.keys h s
  packed_pos value := hF.sequence.packed_pos value.keys
  fits_of_short value h k hk := hF.fits_of_short k ((packed_le_packed M hk).trans_lt h)
  fits_fresh := fun x hx => absurd hx List.not_mem_nil
  fits_unpack := by
    intro input rest x y hx h
    obtain ⟨⟨size, tail⟩, -, h⟩ := Option.bind_eq_some_iff.1 h
    exact fits_unpackKeys hF hx h
  unpack_packed value rest h := by
    obtain ⟨hcount, hshort⟩ := short_packedEach hF h
    change (Format.unsignedInt.unpack (M.packedEach value.keys ++ rest) 0).bind _ = _
    rw [unpack_packedEach, Option.bind_some]
    simp only [hcount]
    apply (unpackKeys_packed hF value.keys .empty rest hshort).trans
    simp only [Meaning.set, SortedMap.mapEntries, SortedMap.keys, List.foldl_map]
    rfl
  injective := SortedMap.mapEntries_injective hF.injective Function.injective_id
  kept_iff value := by
    have hmem (k : α) : k ∈ value.keys ↔ (k, ()) ∈ value.entries := by
      constructor
      · intro hk
        obtain ⟨e, he, rfl⟩ := List.mem_map.1 hk
        exact he
      · exact fun he => List.mem_map_of_mem he
    apply Iff.trans _ (SortedMap.mapEntries_eq_self_iff hF.injective Function.injective_id value).symm
    constructor
    · exact fun h e he => (hmem _).1 (h e.1 ((hmem e.1).2 he))
    · exact fun h k hk => (hmem _).2 (h (k, ()) ((hmem k).1 hk))

private theorem unpackEntries_packed [LinearOrder α] (hF : Lawful F M) (hG : Lawful G N) (es : List (α × β))
    (value : SortedMap α β) (rest : Bytes) (hnodup : (es.map Prod.fst).Nodup)
    (hnew : ∀ k ∈ es.map Prod.fst, M.readBack k ∉ value.keys) (h : (es.flatMap (M.pair N).packed).length < 2 ^ 32) :
    F.unpackEntries G es.length value (es.flatMap (M.pair N).packed ++ rest) =
      some ((es.map (M.pair N).readBack).foldl (fun value e => value.insert e.1 e.2) value, rest) := by
  induction es generalizing value with
  | nil => rfl
  | cons e es ih =>
    rw [List.map_cons, List.nodup_cons] at hnodup
    rw [List.map_cons, List.forall_mem_cons] at hnew
    rw [List.flatMap_cons, List.length_append] at h
    have hpair : ((M.pair N).packed e).length = (M.packed e.1).length + (N.packed e.2).length := List.length_append
    have hrest : ∀ k ∈ es.map Prod.fst, M.readBack k ∉ (value.insert (M.readBack e.1) (N.readBack e.2)).keys := by
      intro k hk
      rw [SortedMap.keys_insert, mem_insertKey, not_or]
      exact ⟨fun he => hnodup.1 (hF.injective he ▸ hk), hnew.2 k hk⟩
    rw [List.length_cons, List.flatMap_cons, Meaning.pair, List.append_assoc, List.append_assoc, Format.unpackEntries,
      hF.unpack_packed e.1 _ (by omega), Option.bind_eq_bind, Option.bind_some]
    simp only [SortedMap.get?_eq_none value hnew.1, Option.getD_none]
    rw [hG.unpack_packed e.2 _ (by omega), Option.bind_eq_bind, Option.bind_some]
    exact ih _ hnodup.2 hrest (by omega)

theorem fits_unpackEntries [LinearOrder α] (hF : Lawful F M) (hG : Lawful G N) {n : Nat} {value value' : SortedMap α β}
    {input rest : Bytes} (hvalue : (M.map N).Fits value) (h : F.unpackEntries G n value input = some (value', rest)) :
    (M.map N).Fits value' := by
  induction n generalizing value input with
  | zero =>
    obtain ⟨rfl, -⟩ := Prod.mk.inj (Option.some.inj h)
    exact hvalue
  | succ n ih =>
    obtain ⟨⟨k, tail⟩, hk, h⟩ := Option.bind_eq_some_iff.1 h
    obtain ⟨⟨v, tail'⟩, hv, h⟩ := Option.bind_eq_some_iff.1 h
    apply ih _ h
    intro e he
    obtain rfl | he := mem_assign he
    · refine ⟨hF.fits_unpack hF.fits_fresh hk, hG.fits_unpack ?_ hv⟩
      cases hget : value.get? k with
      | none => exact hG.fits_fresh
      | some v => exact (hvalue _ (SortedMap.mem_of_get? value hget)).2
    · exact hvalue e he

theorem map [LinearOrder α] (hF : Lawful F M) (hG : Lawful G N) : Lawful (F.map G) (M.map N) where
  pack_eq value s h := packEach_eq (hF.pair hG) value.entries h s
  packed_pos value := (hF.pair hG).sequence.packed_pos value.entries
  fits_of_short value h e he := (hF.pair hG).fits_of_short e ((packed_le_packed (M.pair N) he).trans_lt h)
  fits_fresh := fun x hx => absurd hx List.not_mem_nil
  fits_unpack := by
    intro input rest x y _ h
    obtain ⟨⟨size, tail⟩, -, h⟩ := Option.bind_eq_some_iff.1 h
    exact fits_unpackEntries hF hG (fun x hx => absurd hx List.not_mem_nil) h
  unpack_packed value rest h := by
    obtain ⟨hcount, hshort⟩ := short_packedEach (hF.pair hG) h
    change (Format.unsignedInt.unpack ((M.pair N).packedEach value.entries ++ rest) 0).bind _ = _
    rw [unpack_packedEach, Option.bind_some]
    simp only [hcount]
    exact unpackEntries_packed hF hG value.entries .empty rest value.keys_nodup (fun _ _ => List.not_mem_nil) hshort
  injective := SortedMap.mapEntries_injective hF.injective hG.injective
  kept_iff value := (SortedMap.mapEntries_eq_self_iff hF.injective hG.injective value).symm

end Lawful

/-- Every type's format does what its meaning says. -/
theorem Ty.lawful : (t : Ty) → Lawful t.format t.meaning
  | .signedInt => .signedInt
  | .unsignedInt => .unsignedInt
  | .bool => .bool
  | .string => .string
  | .bytes => .bytes
  | .optional t => t.lawful.optional
  | .pair t u => t.lawful.pair u.lawful
  | .set t => t.lawful.set
  | .map key value => key.lawful.map value.lawful
  | .sequence t => t.lawful.sequence

/-! ### The round trip -/

/-- The first pass of `pack_vec` computes the number of bytes that the second writes, and `unpack_vec` takes all of them
into a fresh value and gives the value back. -/
def RoundTrips (t : Ty) (v : t.Value) : Prop :=
  ∃ size ds, t.format.packedSize v = some size ∧ t.format.fill v size = some ds ∧ ds.written.length = size.toNat ∧
    t.format.packVec v = some ds.written ∧ t.format.unpackVec ds.written t.format.fresh = some (v, [])

variable {t : Ty} {v : t.Value}

theorem packedSize_eq (h : t.meaning.Fits v) :
    t.format.packedSize v = some (BitVec.ofNat 32 (t.meaning.packed v).length) := by
  rw [Format.packedSize, t.lawful.pack_eq v _ h, putAll_sizing]
  exact congrArg some (BitVec.zero_add _)

theorem fill_eq (h : t.meaning.Fits v) (size : BitVec 32) :
    t.format.fill v size = if (t.meaning.packed v).length ≤ size.toNat then
      some ⟨t.meaning.packed v, size.toNat - (t.meaning.packed v).length⟩ else none := by
  rw [Format.fill, t.lawful.pack_eq v _ h, putAll_buffer, List.nil_append]

private theorem unpackVec_packed (h : (t.meaning.packed v).length < 2 ^ 32) :
    t.format.unpackVec (t.meaning.packed v) t.format.fresh = some (t.meaning.readBack v, []) := by
  have hunpack := t.lawful.unpack_packed v [] h
  rw [List.append_nil] at hunpack
  rw [Format.unpackVec, if_pos (List.ne_nil_of_length_pos (t.lawful.packed_pos v)), hunpack]

/-- A value that makes the round trip has a short packing, and is the value that is read back from it. -/
theorem RoundTrips.short_readBack (h : RoundTrips t v) :
    (t.meaning.packed v).length < 2 ^ 32 ∧ t.meaning.readBack v = v := by
  obtain ⟨size, ds, hsize, hfill, -, -, hunpack⟩ := h
  -- strings that are read are shorter than 4 GiB
  have hfits : t.meaning.Fits v := by
    rw [Format.unpackVec] at hunpack
    split_ifs at hunpack
    · exact t.lawful.fits_unpack t.lawful.fits_fresh hunpack
    · obtain ⟨hfresh, -⟩ := Prod.mk.inj (Option.some.inj hunpack)
      exact hfresh ▸ t.lawful.fits_fresh
  rw [fill_eq hfits] at hfill
  split_ifs at hfill with hroom
  obtain rfl := Option.some.inj hfill
  have hshort := hroom.trans_lt size.isLt
  rw [unpackVec_packed hshort] at hunpack
  exact ⟨hshort, (Prod.mk.inj (Option.some.inj hunpack)).1⟩

/-- A value makes the round trip if and only if its packing is shorter than 4 GiB and it is kept: each of its `signed_int`s
is narrow, or in a set or in a map that has also what is read back in its place. -/
theorem roundTrips_iff_kept (t : Ty) (v : t.Value) :
    RoundTrips t v ↔ (t.meaning.packed v).length < 2 ^ 32 ∧ t.meaning.Kept v := by
  rw [t.lawful.kept_iff]
  constructor
  · exact RoundTrips.short_readBack
  rintro ⟨hshort, hkept⟩
  have hfits := t.lawful.fits_of_short v hshort
  have hlen : (BitVec.ofNat 32 (t.meaning.packed v).length).toNat = (t.meaning.packed v).length := by
    rw [BitVec.toNat_ofNat, Nat.mod_eq_of_lt hshort]
  have hfill : t.format.fill v (BitVec.ofNat 32 (t.meaning.packed v).length) = some ⟨t.meaning.packed v, 0⟩ := by
    rw [fill_eq hfits, hlen, if_pos le_rfl, Nat.sub_self]
  have hsize : BitVec.ofNat 32 (t.meaning.packed v).length ≠ 0 := by
    intro hzero
    have hpos := t.lawful.packed_pos v
    rw [hzero] at hlen
    exact hpos.ne hlen
  refine ⟨_, _, packedSize_eq hfits, hfill, hlen.symm, ?_, ?_⟩
  · rw [Format.packVec, packedSize_eq hfits, Option.bind_eq_bind, Option.bind_some, if_pos hsize, hfill,
      Option.bind_eq_bind, Option.bind_some, List.replicate_zero, List.append_nil]
  · rw [unpackVec_packed hshort, hkept]

/-- 2^30 comes back as 2^30 + 1. -/
theorem signedInt_flipped : ¬ RoundTrips .signedInt 0x40000000#32 := by
  intro h
  have hself : flipped 0x40000000#32 = 0x40000000#32 := h.short_readBack.2
  exact absurd hself (by decide)

/-- No `signed_int` occurs in a type. -/
def Ty.Unsigned : Ty → Prop
  | .signedInt => False
  | .unsignedInt | .bool | .string | .bytes => True
  | .optional t | .set t | .sequence t => t.Unsigned
  | .pair t u | .map t u => t.Unsigned ∧ u.Unsigned

/-- Where none does, every value is kept. -/
theorem Ty.Unsigned.kept {t : Ty} (h : t.Unsigned) (v : t.Value) : t.meaning.Kept v := by
  induction t with
  | signedInt => exact h.elim
  | unsignedInt | bool | string | bytes => trivial
  | optional t ih => exact fun x _ => ih h x
  | sequence t ih => exact fun x _ => ih h x
  | pair t u iht ihu => exact ⟨iht h.1 v.1, ihu h.2 v.2⟩
  | set t ih =>
    intro k hk
    rw [(t.lawful.kept_iff k).1 (ih h k)]
    exact hk
  | map t u iht ihu =>
    intro e he
    rw [((t.lawful.pair u.lawful).kept_iff e).1 ⟨iht h.1 e.1, ihu h.2 e.2⟩]
    exact he

end Tornet.Raw
