import Mathlib.Data.List.Lex
import Mathlib.Data.Prod.Lex
import Mathlib.Order.WithBot
import Tornet.Library.SortedMap
import Tornet.Raw.Varints

/-! `pack` and `unpack` of `raw.hpp` for numbers, strings and byte vectors, and for what is built from them. -/
namespace Tornet.Raw
open Library

/-- The overloads for a type, and its `T()`. `unpack` gets the value it is to set: where nothing is set it stays. -/
structure Format (α : Type) where
  fresh : α
  pack {σ : Type} [Sink σ] : α → σ → Option σ
  unpack : Bytes → α → Option (α × Bytes)

/-- `std::set`, a map without values. -/
abbrev SortedSet (α : Type) [LinearOrder α] := SortedMap α Unit

namespace Format
variable {α β : Type} {σ : Type} [Sink σ]

/-! ### Numbers, strings and byte vectors -/

def unsignedInt : Format (BitVec 32) where
  fresh := 0
  pack v s := putGroups (v.setWidth 64) s
  unpack bytes _ := getGroups 0 0 bytes

def signedInt : Format (BitVec 32) where
  fresh := 0
  pack v s := putGroups (zigzag v) s
  unpack bytes _ := do
    let (v, rest) ← getGroups 0 0 bytes
    some (unzigzag v, rest)

/-- It is packed as a `uint8_t`. -/
def bool : Format Bool where
  fresh := false
  pack v s := Sink.write [if v then 1 else 0] 1 s
  unpack bytes _ := do
    let (b, rest) ← read 1 bytes
    some (b ≠ [0], rest)

/-- `std::vector<char>`. -/
def bytes : Format Bytes where
  fresh := []
  pack value s := do
    let s ← unsignedInt.pack (BitVec.ofNat 32 value.length) s
    if value.length ≠ 0 then Sink.write value (BitVec.ofNat 32 value.length) s else some s
  unpack bytes _ := do
    let (size, rest) ← unsignedInt.unpack bytes 0
    if size ≠ 0 then read size rest else some ([], rest)

def string : Format Bytes where
  fresh := []
  pack v s := bytes.pack v s
  unpack input _ := bytes.unpack input []

/-! ### Compound values -/

/-- `boost::optional<T>`. -/
def optional (F : Format α) : Format (Option α) where
  fresh := none
  pack v s := do
    let s ← bool.pack v.isSome s
    match v with
    | some x => F.pack x s
    | none => some s
  unpack bytes v := do
    let (b, rest) ← bool.unpack bytes false
    if b then
      let (x, rest) ← F.unpack rest F.fresh
      some (some x, rest)
    else some (v, rest)

/-- `std::pair<Key,Value>`. -/
def pair (F : Format α) (G : Format β) : Format (α × β) where
  fresh := (F.fresh, G.fresh)
  pack val s := do
    let s ← F.pack val.1 s
    G.pack val.2 s
  unpack bytes val := do
    let (a, rest) ← F.unpack bytes val.1
    let (b, rest) ← G.unpack rest val.2
    some ((a, b), rest)

def packEach (F : Format α) (value : List α) (s : σ) : Option σ := do
  let s ← unsignedInt.pack (BitVec.ofNat 32 value.length) s
  value.foldlM (fun s x => F.pack x s) s

/-- `value.resize( n )`. -/
def resize (F : Format α) (value : List α) (n : Nat) : List α :=
  value.take n ++ List.replicate (n - value.length) F.fresh

def unpackEach (F : Format α) : List α → Bytes → Option (List α × Bytes)
  | [], bytes => some ([], bytes)
  | x :: value, bytes => do
    let (x, rest) ← F.unpack bytes x
    let (value, rest) ← unpackEach F value rest
    some (x :: value, rest)

/-- `Container<T,Alloc<T>>`: a vector, a list or a deque. -/
def sequence (F : Format α) : Format (List α) where
  fresh := []
  pack value s := F.packEach value s
  unpack bytes value := do
    let (size, rest) ← unsignedInt.unpack bytes 0
    F.unpackEach (F.resize value size.toNat) rest

/-- The loop that inserts the elements of a set. -/
def unpackKeys [LinearOrder α] (F : Format α) : Nat → SortedSet α → Bytes → Option (SortedSet α × Bytes)
  | 0, value, bytes => some (value, bytes)
  | n + 1, value, bytes => do
    let (v, rest) ← F.unpack bytes F.fresh
    unpackKeys F n (value.insert v ()) rest

/-- `std::set<T>`. -/
def set [LinearOrder α] (F : Format α) : Format (SortedSet α) where
  fresh := .empty
  pack value s := F.packEach value.keys s
  unpack bytes value := do
    let (ss, rest) ← unsignedInt.unpack bytes 0
    F.unpackKeys ss.toNat value rest

/-- The loop that reads the entries of a map: `value[k]` is there already where a key is read twice. -/
def unpackEntries [LinearOrder α] (F : Format α) (G : Format β) :
    Nat → SortedMap α β → Bytes → Option (SortedMap α β × Bytes)
  | 0, value, bytes => some (value, bytes)
  | n + 1, value, bytes => do
    let (k, rest) ← F.unpack bytes F.fresh
    let (v, rest) ← G.unpack rest ((value.get? k).getD G.fresh)
    unpackEntries F G n (value.insert k v) rest

/-- `std::map<Key,Value>`, which is cleared first. -/
def map [LinearOrder α] (F : Format α) (G : Format β) : Format (SortedMap α β) where
  fresh := .empty
  pack value s := (F.pair G).packEach value.entries s
  unpack bytes _ := do
    let (size, rest) ← unsignedInt.unpack bytes 0
    F.unpackEntries G size.toNat .empty rest

/-! ### Vectors -/

/-- The first pass of `pack_vec`. -/
def packedSize (F : Format α) (v : α) : Option (BitVec 32) := (F.pack v (⟨0⟩ : Sizing)).map Sizing.size

def fill (F : Format α) (v : α) (size : BitVec 32) : Option Buffer := F.pack v ⟨[], size.toNat⟩

/-- `pack_vec`: what is not written of the vector is zero. -/
def packVec (F : Format α) (v : α) : Option Bytes := do
  let size ← F.packedSize v
  if size ≠ 0 then
    let ds ← F.fill v size
    some (ds.written ++ List.replicate ds.room 0)
  else some []

/-- `unpack_vec`, and what it leaves of the vector. -/
def unpackVec (F : Format α) (s : Bytes) (v : α) : Option (α × Bytes) := if s ≠ [] then F.unpack s v else some (v, [])

end Format

/-! ### Types -/

/-- The types that values are built from. -/
inductive Ty where
  | signedInt | unsignedInt | bool | string | bytes
  | optional (t : Ty)
  | pair (t u : Ty)
  | set (t : Ty)
  | map (key value : Ty)
  | sequence (t : Ty)
  deriving DecidableEq, Repr

/-- A type with its `operator<`, which sets and maps are sorted by, and its format. -/
structure Kind where
  Value : Type
  order : LinearOrder Value
  format : Format Value

namespace Kind

instance (K : Kind) : LinearOrder K.Value := K.order

def signedInt : Kind := ⟨BitVec 32, .lift' BitVec.toInt fun _ _ => BitVec.eq_of_toInt_eq, .signedInt⟩

def unsignedInt : Kind := ⟨BitVec 32, .lift' BitVec.toNat fun _ _ => BitVec.eq_of_toNat_eq, .unsignedInt⟩

def bool : Kind := ⟨Bool, inferInstance, .bool⟩

def string : Kind where
  Value := Bytes
  order := .lift' (List.map UInt8.toNat) (List.map_injective_iff.2 fun _ _ => UInt8.toNat.inj)
  format := .string

/-- A vector compares the `char`s. -/
def bytes : Kind where
  Value := Bytes
  order := .lift' (List.map fun b => b.toBitVec.toInt)
    (List.map_injective_iff.2 fun _ _ h => UInt8.toBitVec_inj.1 (BitVec.eq_of_toInt_eq h))
  format := .bytes

def optional (K : Kind) : Kind := ⟨Option K.Value, inferInstanceAs (LinearOrder (WithBot K.Value)), K.format.optional⟩

def pair (K M : Kind) : Kind :=
  ⟨K.Value × M.Value, inferInstanceAs (LinearOrder (K.Value ×ₗ M.Value)), K.format.pair M.format⟩

private theorem keys_injective {α : Type} [LinearOrder α] : Function.Injective (SortedMap.keys : SortedSet α → List α) :=
  fun _ _ h => SortedMap.entries_injective (List.map_injective_iff.2 (fun _ _ h => Prod.ext h rfl) h)

def set (K : Kind) : Kind := ⟨SortedSet K.Value, .lift' SortedMap.keys keys_injective, K.format.set⟩

def map (K M : Kind) : Kind where
  Value := SortedMap K.Value M.Value
  order := .lift' (fun value => value.entries.map toLex)
    ((List.map_injective_iff.2 toLex.injective).comp SortedMap.entries_injective)
  format := K.format.map M.format

def sequence (K : Kind) : Kind := ⟨List K.Value, inferInstance, K.format.sequence⟩

end Kind

def Ty.kind : Ty → Kind
  | .signedInt => .signedInt
  | .unsignedInt => .unsignedInt
  | .bool => .bool
  | .string => .string
  | .bytes => .bytes
  | .optional t => t.kind.optional
  | .pair t u => t.kind.pair u.kind
  | .set t => t.kind.set
  | .map key value => key.kind.map value.kind
  | .sequence t => t.kind.sequence

abbrev Ty.Value (t : Ty) : Type := t.kind.Value

abbrev Ty.format (t : Ty) : Format t.Value := t.kind.format

end Tornet.Raw
