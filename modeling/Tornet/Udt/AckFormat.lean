import Tornet.Library.Codec
import Tornet.Udt.Channel

/-! The bytes of an `ack_packet`: its two stream operators, and the buffers `send_ack` fills
and `handle_ack` reads. -/
namespace Tornet
open Library

namespace MissList

/-- One range on the wire, its first number before its last. -/
def rangeFormat : Codec (SeqNum × SeqNum) := (Codec.word 2).pair (Codec.word 2)

/-- The count byte: a circular minimum of 128 and the number of ranges. -/
def wireLen (l : MissList) : UInt8 :=
  let n : SeqNum := BitVec.ofNat 16 l.length
  UInt8.ofNat (if SeqNum.lt n 128 then n else 128).toNat

/-- The loop of `operator<<`, which counts `len` down while ranges are left. -/
def writeRanges : Nat → MissList → List UInt8
  | 0, _ => []
  | _, [] => []
  | len + 1, r :: rest => rangeFormat.pack r ++ writeRanges len rest

/-- `operator<<` of a `miss_list`. -/
def write (l : MissList) : List UInt8 := l.wireLen :: writeRanges l.wireLen.toNat l

/-- `operator>>` of a `miss_list`: the list is resized to the count before its ranges are read. -/
def read (bytes : List UInt8) : Option (MissList × List UInt8) := do
  let (len, rest) ← Codec.byte.unpack bytes
  rangeFormat.items len.toNat rest

theorem writeRanges_eq (n : Nat) (l : MissList) : writeRanges n l = (l.take n).flatMap rangeFormat.pack := by
  induction l generalizing n with
  | nil => cases n <;> rfl
  | cons r rest ih =>
    cases n with
    | zero => rfl
    | succ n => rw [writeRanges, ih, List.take_succ_cons, List.flatMap_cons]

theorem length_rangeFormat (r : SeqNum × SeqNum) : (rangeFormat.pack r).length = 4 := by
  simp [rangeFormat, Codec.pair, Codec.word, Codec.fixed, Codec.length_leBytes]

/-- What `wire` keeps is what the count byte announces. -/
theorem wire_eq_wireLen (l : MissList) : l.wire = l.take l.wireLen.toNat := by
  rw [wire, wireLen, UInt8.toNat_ofNat']

/-- Up to half the number space ahead of 128, the circular comparison is that of the lengths. -/
private theorem lt_length_iff {n : Nat} (h : n < 32768) : SeqNum.lt (BitVec.ofNat 16 n) 128 = true ↔ n < 128 := by
  have hn : (BitVec.ofNat 16 n).toNat = n := by
    rw [BitVec.toNat_ofNat]
    omega
  rw [SeqNum.lt_iff, BitVec.toNat_sub, hn, Ne, ← BitVec.toNat_inj, hn]
  change ¬n = 128 ∧ (2 ^ 16 - n + 128) % 2 ^ 16 < 2 ^ 15 ↔ _
  omega

/-- Below half the number space the circular minimum is the minimum. -/
theorem wireLen_toNat {l : MissList} (h : l.length < 32768) : l.wireLen.toNat = min 128 l.length := by
  rw [wireLen, UInt8.toNat_ofNat']
  by_cases h128 : l.length < 128
  · rw [if_pos ((lt_length_iff h).mpr h128), BitVec.toNat_ofNat]
    omega
  · rw [if_neg (fun hc => h128 ((lt_length_iff h).mp hc))]
    change 128 % 2 ^ 8 = _
    omega

/-- No list announces more ranges than it has, however long it is. -/
theorem wireLen_le (l : MissList) : l.wireLen.toNat ≤ l.length := by
  by_cases h : l.length < 32768
  · rw [wireLen_toNat h]
    exact Nat.min_le_right ..
  · have := l.wireLen.toNat_lt
    omega

theorem length_write (l : MissList) : l.write.length = 1 + 4 * l.wireLen.toNat := by
  have hranges (k : MissList) : (k.flatMap rangeFormat.pack).length = 4 * k.length := by
    induction k with
    | nil => rfl
    | cons r rest ih =>
      rw [List.flatMap_cons, List.length_append, length_rangeFormat, ih, List.length_cons]
      omega
  rw [write, List.length_cons, writeRanges_eq, hranges, List.length_take_of_le l.wireLen_le]
  omega

/-- A list is read back to the ranges that went on the wire. -/
theorem read_write (l : MissList) (rest : List UInt8) : read (l.write ++ rest) = some (l.wire, rest) := by
  have hlen : (l.take l.wireLen.toNat).length = l.wireLen.toNat := List.length_take_of_le l.wireLen_le
  have hitems := rangeFormat.items_pack (l.take l.wireLen.toNat) rest
  rw [hlen, ← writeRanges_eq, ← wire_eq_wireLen] at hitems
  rw [read, write, List.cons_append]
  exact hitems

end MissList

namespace Udt

/-- The members of an `ack_packet` that its stream operators move; `flags` is any byte there. -/
structure AckFields where
  flags : UInt8
  rxWinStart : SeqNum
  rxWinSize : BitVec 16
  rxWinEnd : SeqNum
  ackSeq : SeqNum
  utcTime : BitVec 64
  missedSeq : MissList
  deriving DecidableEq, Repr

namespace AckFields

/-- `operator<<` of an `ack_packet`. -/
def write (n : AckFields) : List UInt8 :=
  Codec.byte.pack n.flags ++ ((Codec.word 2).pack n.rxWinStart ++ ((Codec.word 2).pack n.rxWinSize ++
    ((Codec.word 2).pack n.rxWinEnd ++ ((Codec.word 2).pack n.ackSeq ++ ((Codec.word 8).pack n.utcTime ++
      n.missedSeq.write)))))

/-- `operator>>` of an `ack_packet`; the stream refuses to read behind its end. -/
def read (bytes : List UInt8) : Option (AckFields × List UInt8) := do
  let (flags, rest) ← Codec.byte.unpack bytes
  let (rxWinStart, rest) ← (Codec.word 2).unpack rest
  let (rxWinSize, rest) ← (Codec.word 2).unpack rest
  let (rxWinEnd, rest) ← (Codec.word 2).unpack rest
  let (ackSeq, rest) ← (Codec.word 2).unpack rest
  let (utcTime, rest) ← (Codec.word 8).unpack rest
  let (missedSeq, rest) ← MissList.read rest
  some (⟨flags, rxWinStart, rxWinSize, rxWinEnd, ackSeq, utcTime, missedSeq⟩, rest)

theorem length_write (n : AckFields) : n.write.length = 17 + n.missedSeq.write.length := by
  simp only [write, Codec.byte, Codec.word, Codec.fixed, List.length_append, List.length_singleton,
    Codec.length_leBytes]
  omega

/-- The fixed fields are read in the order they are written, so the list stands where it is expected. -/
theorem read_write (n : AckFields) (rest : List UInt8) :
    read (n.write ++ rest) = some ({ n with missedSeq := n.missedSeq.wire }, rest) := by
  simp only [read, write, List.append_assoc, Codec.unpack_pack, MissList.read_write, Option.bind_eq_bind,
    Option.bind_some]

/-- The buffer `send_ack` hands to `send`: `ds << rx_ack_pack` over the 2048 bytes of a new
`tn::buffer`, which is then cut to what was written. -/
def sendBuffer (n : AckFields) : Option (List UInt8) :=
  if n.write.length ≤ 2048 then some n.write else none

/-- For every `ack_packet` with a list of less than 32768 ranges: it fits its buffer with at most 530 bytes,
and reading it uses them up and gives it back with the first 128 ranges of its list. -/
theorem read_sendBuffer (n : AckFields) (h : n.missedSeq.length < 32768) :
    ∃ b, n.sendBuffer = some b ∧ b.length ≤ 530 ∧
      read b = some ({ n with missedSeq := n.missedSeq.take (min 128 n.missedSeq.length) }, []) := by
  have hlen := MissList.wireLen_toNat h
  have hsize : n.write.length ≤ 530 := by
    rw [length_write, MissList.length_write, hlen]
    omega
  refine ⟨n.write, if_pos (by omega), hsize, ?_⟩
  rw [← hlen, ← MissList.wire_eq_wireLen]
  simpa using n.read_write []

/-- A list of 200 ranges: 128 of them arrive, in 530 bytes. -/
theorem read_sendBuffer_long :
    ∃ n : AckFields, n.missedSeq.length = 200 ∧ ∃ b, n.sendBuffer = some b ∧ b.length ≤ 530 ∧
      read b = some ({ n with missedSeq := n.missedSeq.take 128 }, []) := by
  obtain ⟨n, hlen⟩ : ∃ n : AckFields, n.missedSeq.length = 200 :=
    ⟨⟨1, 7, 255, 9, 3, 0, List.replicate 200 (5, 5)⟩, List.length_replicate⟩
  obtain ⟨b, hb, hsize, hread⟩ := read_sendBuffer n (by omega)
  have h128 : min 128 n.missedSeq.length = 128 := by omega
  rw [h128] at hread
  exact ⟨n, hlen, b, hb, hsize, hread⟩

end AckFields

def PacketType.toByte : PacketType → UInt8
  | .data => 0
  | .ack => 1
  | .nack => 2
  | .ack2 => 3
  | .close => 4

def AckPacket.fields (p : AckPacket) : AckFields where
  flags := p.flags.toByte
  rxWinStart := p.rxWinStart
  rxWinSize := p.rxWinSize
  rxWinEnd := p.rxWinEnd
  ackSeq := p.ackSeq
  utcTime := p.utcTime.toBitVec
  missedSeq := p.missedSeq

/-- The packet that `sendAck` puts on the network is the one its bytes are read as. -/
theorem read_sendAck (now : UInt64) (c : Channel) :
    ∃ p, (c.sendAck now).2 = .ack p ∧ AckFields.read (c.sendAck now).1.rxAckPack.fields.write = some (p.fields, []) := by
  refine ⟨_, rfl, ?_⟩
  have hread := (c.sendAck now).1.rxAckPack.fields.read_write []
  rw [List.append_nil] at hread
  exact hread

end Udt
end Tornet
