import Mathlib.Data.List.Basic
import Mathlib.Tactic.IntervalCases

/-! Data combined word by word with a stream of 32-bit words, in little-endian memory: byte by byte it
is the data combined with the bytes of the stream. -/
namespace Tornet.Library.Keystream

/-- Byte `j` of a word in memory. -/
def byteOf (w : BitVec 32) (j : Nat) : UInt8 := ⟨w.extractLsb' (8 * j) 8⟩

/-- The word at the head of some bytes; missing bytes are zero. -/
def wordOf (bytes : List UInt8) : BitVec 32 :=
  (bytes.getD 3 0).toBitVec ++ (bytes.getD 2 0).toBitVec ++ (bytes.getD 1 0).toBitVec ++ (bytes.getD 0 0).toBitVec

def bytesOf (w : BitVec 32) : List UInt8 := [byteOf w 0, byteOf w 1, byteOf w 2, byteOf w 3]

/-- Word `k` of the stream for each four bytes, and its first bytes for the tail. -/
def xorWords (stream : Nat → BitVec 32) : Nat → List UInt8 → List UInt8
  | k, a :: b :: c :: d :: rest =>
    bytesOf (wordOf [a, b, c, d] ^^^ stream k) ++ xorWords stream (k + 1) rest
  | k, tail => (bytesOf (wordOf tail ^^^ stream k)).take tail.length

/-- The bytes of the stream. -/
def keyByte (stream : Nat → BitVec 32) (i : Nat) : UInt8 := byteOf (stream (i / 4)) (i % 4)

theorem byteOf_xor (v w : BitVec 32) (j : Nat) : byteOf (v ^^^ w) j = byteOf v j ^^^ byteOf w j := by
  apply UInt8.eq_of_toBitVec_eq
  simp [byteOf, BitVec.extractLsb'_xor]

theorem byteOf_wordOf (bytes : List UInt8) {j : Nat} (hj : j < 4) : byteOf (wordOf bytes) j = bytes.getD j 0 := by
  apply UInt8.eq_of_toBitVec_eq
  unfold byteOf wordOf
  apply BitVec.eq_of_getLsbD_eq
  intro i hi
  -- the byte starts where the appended bytes below it end
  interval_cases j <;>
    simp only [BitVec.getLsbD_extractLsb', BitVec.getLsbD_append, hi, decide_true, Bool.true_and] <;>
    split_ifs <;> first | omega | (congr 1; omega)

/-- A short list and the first bytes of a word. -/
theorem take_bytesOf (tail : List UInt8) (w : BitVec 32) (h : tail.length ≤ 4) :
    (bytesOf (wordOf tail ^^^ w)).take tail.length = tail.mapIdx fun i x => x ^^^ byteOf w i := by
  apply List.ext_getElem
  · simp [bytesOf]
    omega
  · intro i h1 h2
    have hi : i < tail.length := by simpa using h2
    have hbyte : (bytesOf (wordOf tail ^^^ w))[i]? = some (byteOf (wordOf tail ^^^ w) i) := by
      have : i < 4 := by omega
      interval_cases i <;> rfl
    obtain ⟨_, hget⟩ := List.getElem_of_getElem? hbyte
    rw [List.getElem_take, List.getElem_mapIdx, hget, byteOf_xor, byteOf_wordOf tail (by omega)]
    simp [hi]

theorem xorWords_eq (stream : Nat → BitVec 32) (k : Nat) (data : List UInt8) :
    xorWords stream k data = data.mapIdx fun i x => x ^^^ keyByte stream (4 * k + i) := by
  fun_induction xorWords stream k data with
  | case1 k a b c d rest ih =>
    have hkey (i : Nat) : keyByte stream (4 * k + (i + 4)) = keyByte stream (4 * (k + 1) + i) := by
      rw [show 4 * k + (i + 4) = 4 * (k + 1) + i by omega]
    have hword : bytesOf (wordOf [a, b, c, d] ^^^ stream k) =
        [a, b, c, d].mapIdx fun i x => x ^^^ keyByte stream (4 * k + i) := by
      have htake := take_bytesOf [a, b, c, d] (stream k) le_rfl
      rw [show [a, b, c, d].length = (bytesOf (wordOf [a, b, c, d] ^^^ stream k)).length from rfl,
        List.take_length] at htake
      rw [htake]
      refine List.mapIdx_eq_mapIdx_iff.mpr fun i hi => ?_
      have : i < 4 := hi
      rw [keyByte, show (4 * k + i) / 4 = k by omega, show (4 * k + i) % 4 = i by omega]
    rw [hword, ih, show a :: b :: c :: d :: rest = [a, b, c, d] ++ rest from rfl, List.mapIdx_append]
    simp only [List.length_cons, List.length_nil, hkey]
  | case2 k tail hshort =>
    have hlen : tail.length < 4 := by
      rcases tail with _ | ⟨a, _ | ⟨b, _ | ⟨c, _ | ⟨d, rest⟩⟩⟩⟩
      · simp
      · simp
      · simp
      · simp
      · exact absurd rfl (hshort a b c d rest)
    rw [take_bytesOf tail (stream k) hlen.le]
    refine List.mapIdx_eq_mapIdx_iff.mpr fun i hi => ?_
    rw [keyByte, show (4 * k + i) / 4 = k by omega, show (4 * k + i) % 4 = i by omega]

/-- The memory the first words of the stream fill. -/
def generate (stream : Nat → BitVec 32) (n : Nat) : List UInt8 := (List.range n).flatMap fun k => bytesOf (stream k)

theorem generate_eq (stream : Nat → BitVec 32) (n : Nat) :
    generate stream n = (List.range (4 * n)).map (keyByte stream) := by
  induction n with
  | zero => rfl
  | succ n ih =>
    have hword : bytesOf (stream n) = (List.range 4).map fun j => keyByte stream (4 * n + j) := by
      have hbyte {j : Nat} (hj : j < 4) : keyByte stream (4 * n + j) = byteOf (stream n) j := by
        rw [keyByte, show (4 * n + j) / 4 = n by omega, show (4 * n + j) % 4 = j by omega]
      simp only [List.range_succ, List.range_zero, List.nil_append, List.map_cons, List.map_nil,
        List.cons_append, hbyte (show 0 < 4 by omega), hbyte (show 1 < 4 by omega), hbyte (show 2 < 4 by omega),
        hbyte (show 3 < 4 by omega)]
      rfl
    rw [show 4 * (n + 1) = 4 * n + 4 by omega, List.range_add, List.map_append, ← ih, List.map_map]
    rw [generate]
    rw [List.range_succ, List.flatMap_append, List.flatMap_singleton, hword]
    rfl

/-- Words read from memory at a byte offset: each byte of the data meets the byte of the stream at
its own position behind the offset. -/
theorem xorWords_memory (stream : Nat → BitVec 32) (memory : List UInt8) (offset : Nat) (data : List UInt8)
    (hmem : ∀ i < data.length, memory[offset + i]? = some (keyByte stream (offset + i))) :
    xorWords (fun k => wordOf (memory.drop (offset + 4 * k))) 0 data =
      data.mapIdx fun i x => x ^^^ keyByte stream (offset + i) := by
  rw [xorWords_eq]
  refine List.mapIdx_eq_mapIdx_iff.mpr fun i hi => ?_
  have hget : (memory.drop (offset + 4 * (i / 4))).getD (i % 4) 0 = keyByte stream (offset + i) := by
    rw [List.getD_eq_getElem?_getD, List.getElem?_drop, show offset + 4 * (i / 4) + i % 4 = offset + i by omega,
      hmem i hi, Option.getD_some]
  rw [Nat.mul_zero, Nat.zero_add, ← hget, keyByte, byteOf_wordOf _ (Nat.mod_lt i (by decide))]

end Tornet.Library.Keystream
