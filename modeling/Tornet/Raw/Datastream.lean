import Mathlib.Tactic.SplitIfs
import Tornet.Peer

/-! `datastream`: the stream that only counts, the one that writes into a buffer and the one that reads. -/
namespace Tornet.Raw

/-- What `pack` uses of a stream. It is `none` where a stream throws, and where it copies to behind its end. -/
class Sink (σ : Type) where
  put : UInt8 → σ → Option σ
  write : Bytes → BitVec 32 → σ → Option σ

/-- `datastream<size_t>`. -/
structure Sizing where
  size : BitVec 32
  deriving DecidableEq, Repr

instance : Sink Sizing where
  put _ ps := some ⟨ps.size + 1⟩
  write _ s ps := some ⟨ps.size + s⟩

/-- `datastream<char*>`: what lies before `m_pos`, and the number of bytes from there to `m_end`. -/
structure Buffer where
  written : Bytes
  room : Nat
  deriving DecidableEq, Repr

def Buffer.put (c : UInt8) (ds : Buffer) : Option Buffer :=
  if 0 < ds.room then some ⟨ds.written ++ [c], ds.room - 1⟩ else none

def Buffer.write (d : Bytes) (s : BitVec 32) (ds : Buffer) : Option Buffer :=
  -- from 2 GiB on `(int32_t)s` is negative, and the copy is made whatever the room
  if s.toInt ≤ ds.room then
    if s.toNat ≤ ds.room then some ⟨ds.written ++ d.take s.toNat, ds.room - s.toNat⟩ else none
  else none

instance : Sink Buffer := ⟨Buffer.put, Buffer.write⟩

/-- `read` of `datastream<const char*>`, which has these bytes before its end, with the check of `write`. -/
def read (s : BitVec 32) (bytes : Bytes) : Option (Bytes × Bytes) :=
  if s.toInt ≤ bytes.length then
    if s.toNat ≤ bytes.length then some (bytes.take s.toNat, bytes.drop s.toNat) else none
  else none

/-! ### What is written -/

variable {σ : Type} [Sink σ]

def putAll (bytes : Bytes) (s : σ) : Option σ := bytes.foldlM (fun s b => Sink.put b s) s

/-- A stream on which a copy does what the bytes do one after the other. -/
class LawfulSink (σ : Type) [Sink σ] : Prop where
  write_eq (d : Bytes) (s : σ) (h : d.length < 2 ^ 32) : Sink.write d (BitVec.ofNat 32 d.length) s = putAll d s

@[simp] theorem putAll_nil (s : σ) : putAll [] s = some s := rfl

theorem putAll_cons (b : UInt8) (bytes : Bytes) (s : σ) : putAll (b :: bytes) s = (Sink.put b s).bind (putAll bytes) :=
  List.foldlM_cons

theorem putAll_append (a b : Bytes) (s : σ) : putAll (a ++ b) s = (putAll a s).bind (putAll b) := List.foldlM_append

theorem putAll_sizing (bytes : Bytes) (ps : Sizing) : putAll bytes ps = some ⟨ps.size + BitVec.ofNat 32 bytes.length⟩ := by
  induction bytes generalizing ps with
  | nil => rw [putAll_nil, List.length_nil, BitVec.add_zero]
  | cons b bytes ih =>
    change putAll bytes (⟨ps.size + 1⟩ : Sizing) = _
    rw [ih, List.length_cons, Nat.add_comm, BitVec.ofNat_add, BitVec.add_assoc]
    rfl

theorem putAll_buffer (bytes : Bytes) (ds : Buffer) : putAll bytes ds =
    if bytes.length ≤ ds.room then some ⟨ds.written ++ bytes, ds.room - bytes.length⟩ else none := by
  induction bytes generalizing ds with
  | nil => rw [putAll_nil, List.length_nil, if_pos (Nat.zero_le _), List.append_nil, Nat.sub_zero]
  | cons b bytes ih =>
    rw [putAll_cons]
    change (ds.put b).bind (putAll bytes) = _
    rw [Buffer.put, List.length_cons]
    by_cases hroom : 0 < ds.room
    · rw [if_pos hroom, Option.bind_some, ih]
      simp only [List.append_assoc, List.singleton_append]
      congr 1
      · exact propext (by omega)
      · congr 2
        omega
    · rw [if_neg hroom, Option.bind_none, if_neg (by omega)]

instance : LawfulSink Sizing where
  write_eq d ps _ := (putAll_sizing d ps).symm

instance : LawfulSink Buffer where
  write_eq d ds h := by
    change ds.write d (BitVec.ofNat 32 d.length) = _
    have hd : (BitVec.ofNat 32 d.length).toNat = d.length := by rw [BitVec.toNat_ofNat, Nat.mod_eq_of_lt h]
    rw [putAll_buffer, Buffer.write, BitVec.toInt_eq_toNat_cond, hd, List.take_length]
    split_ifs <;> first | rfl | omega

/-! ### What is read -/

theorem read_append {d : Bytes} (rest : Bytes) (h : d.length < 2 ^ 32) :
    read (BitVec.ofNat 32 d.length) (d ++ rest) = some (d, rest) := by
  have hd : (BitVec.ofNat 32 d.length).toNat = d.length := by rw [BitVec.toNat_ofNat, Nat.mod_eq_of_lt h]
  have hfits : (BitVec.ofNat 32 d.length).toInt ≤ (d ++ rest).length := by
    rw [BitVec.toInt_eq_toNat_cond, hd, List.length_append]
    split_ifs <;> omega
  rw [read, if_pos hfits, hd, if_pos (by rw [List.length_append]; omega), List.take_left, List.drop_left]

theorem length_read {s : BitVec 32} {bytes d rest : Bytes} (h : read s bytes = some (d, rest)) : d.length = s.toNat := by
  rw [read] at h
  split_ifs at h with _ hle
  obtain ⟨rfl, -⟩ := Prod.mk.inj (Option.some.inj h)
  exact List.length_take_of_le hle

end Tornet.Raw
