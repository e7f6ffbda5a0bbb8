import Tornet.Connection.Authentication

/-! `tn::buffer`: views into the 2048 bytes a datagram was received in, and the views that
`decode_packet`, `handle_data_msg` and `on_recv` take of a decrypted one. -/
namespace Tornet.Connection
open Library

/-- `buffer`: the shared storage, the offset of `start` in it and the length. -/
structure Buffer where
  storage : Bytes
  full : storage.length = 2048
  start : Int := 0
  len : BitVec 32
  deriving DecidableEq

namespace Buffer

/-- `b[i]`. Nothing compares the index with the length. -/
def get (b : Buffer) (i : Nat) : UInt8 := b.storage.getD (b.start.toNat + i) 0

def bytes (b : Buffer) : Bytes := (b.storage.drop b.start.toNat).take b.len.toNat

/-- The pointer and the length that `subbuf` computes; `uint32_t(-1)` stands for the rest. -/
def view (b : Buffer) (s : Int) (l : BitVec 32) : Buffer :=
  { b with start := b.start + s, len := if l = -1 then b.len - BitVec.ofInt 32 s else l }

/-- The two assertions of `subbuf`. -/
def Fits (b : Buffer) : Prop := 0 ≤ b.start ∧ b.start + b.len.toNat ≤ 2048

instance (b : Buffer) : Decidable b.Fits := inferInstanceAs (Decidable (_ ∧ _))

/-- `buffer::subbuf`; `none` where an assertion fails. -/
def subbuf (b : Buffer) (s : Int) (l : BitVec 32) : Option Buffer :=
  if (b.view s l).Fits then some (b.view s l) else none

/-- The range of `v` lies inside the range of `b`. -/
def Inside (v b : Buffer) : Prop := b.start ≤ v.start ∧ v.start + v.len.toNat ≤ b.start + b.len.toNat

instance (v b : Buffer) : Decidable (v.Inside b) := inferInstanceAs (Decidable (_ ∧ _))

/-- The buffer of `read_loop`: a datagram from the first byte of the storage on, here one that a
handler decrypts. -/
structure Datagram (b : Buffer) : Prop where
  start : b.start = 0
  pos : 0 < b.len.toNat
  max : b.len.toNat ≤ 2048
  blocks : b.len.toNat % 8 = 0

/-- Takes a sub-buffer and goes on with it, unless an assertion ends the process: the views
asked for from here on. -/
def taking (b : Buffer) (s : Int) (l : BitVec 32) (rest : Buffer → List Buffer) : List Buffer :=
  b.view s l :: match b.subbuf s l with
    | some v => rest v
    | none => []

end Buffer

open Buffer

/-- What `handle_data_msg` finds for the two channel numbers: nothing, and `create_channel` throws;
a channel without a receive callback; or one whose callback is `udt_channel_private::on_recv`. -/
inductive Found where
  | refused | idle | udt
  deriving DecidableEq, Repr

/-- `udt_channel_private::on_recv`. Of its handlers only `handle_data` takes a sub-buffer, before it
reads the header. -/
def onRecvViews (b : Buffer) : List Buffer :=
  match (b.get 0).toNat with
  | 0 => b.taking 5 (-1) fun _ => []
  | _ => []

/-- `handle_data_msg` in state connected, down to the callback of the channel; the datastream throws
when it has fewer than the four bytes of the two channel numbers. -/
def handleDataViews (found : Found) (b : Buffer) : List Buffer :=
  if b.len.toNat < 4 then []
  else match found with
    | .refused => []
    | .idle => b.taking 4 (-1) fun _ => []
    | .udt => b.taking 4 (-1) onRecvViews

/-- `b.size()-4-pad`, cut to 32 bits. -/
def payloadLen (b : Buffer) : BitVec 32 := b.len - 4 - BitVec.ofNat 32 ((b.get 3).toNat % 8)

/-- The views `decode_packet` takes of a decrypted datagram, with those of the handlers it calls. -/
def decodeViews (K : Crypto) (connected : Bool) (found : Found) (b : Buffer) : List Buffer :=
  if checksumOk K b.bytes then
    match typeOf b.bytes with
    | none => []
    | some t => b.taking 4 (payloadLen b) fun v =>
      if t = .data ∧ connected = true then handleDataViews found v else []
  else []

/-- No view leaves the datagram, and no assertion of `subbuf` fails. -/
def Contained (b : Buffer) (views : List Buffer) : Prop := ∀ v ∈ views, v.Inside b ∧ v.Fits

instance (b : Buffer) (views : List Buffer) : Decidable (Contained b views) :=
  inferInstanceAs (Decidable (∀ v ∈ views, _))

/-- The datagrams that are read as they are meant: one of eight bytes has at most five of padding, and
a udt data packet inside a data message has its header. -/
def WellSized (connected : Bool) (found : Found) (b : Buffer) : Prop :=
  let pad := (b.get 3).toNat % 8
  ¬ ((typeOf b.bytes).isSome ∧ b.len.toNat = 8 ∧ 6 ≤ pad) ∧
  ¬ (typeOf b.bytes = some .data ∧ connected = true ∧ found = .udt ∧ b.get 8 = 0 ∧
      (b.len.toNat = 8 ∧ (pad = 0 ∨ pad = 5) ∨ b.len.toNat = 16 ∧ 4 ≤ pad))

instance (connected : Bool) (found : Found) (b : Buffer) : Decidable (WellSized connected found b) :=
  inferInstanceAs (Decidable (_ ∧ _))

/-! ### One view at a time -/

section
variable {b v : Buffer}

theorem Buffer.Datagram.fits (hb : b.Datagram) : b.Fits := by
  have hmax := hb.max
  refine ⟨hb.start.ge, ?_⟩
  rw [hb.start]
  omega

@[simp] theorem contained_nil : Contained b [] := fun _ h => absurd h List.not_mem_nil

/-- Going on with a view only matters where its assertions hold. -/
theorem contained_taking {s : Int} {l : BitVec 32} {rest : Buffer → List Buffer} :
    Contained b (v.taking s l rest) ↔
      ((v.view s l).Inside b ∧ (v.view s l).Fits) ∧ Contained b (rest (v.view s l)) := by
  unfold Contained taking subbuf
  rw [List.forall_mem_cons]
  refine and_congr_right fun h => ?_
  rw [if_pos h.2]

/-- The view to the end from `s` on is inside when there are `s` bytes to skip; with fewer the length
wraps around. -/
theorem rest_contained (hb : b.Datagram) (hv : v.Inside b) {s : Nat} (hs : s ≤ 2048) :
    (v.view s (-1)).Inside b ∧ (v.view s (-1)).Fits ↔ s ≤ v.len.toNat := by
  have hlen : (v.view s (-1)).len = v.len - BitVec.ofNat 32 s := by
    show (if (-1 : BitVec 32) = -1 then v.len - BitVec.ofInt 32 s else -1) = _
    rw [if_pos rfl, BitVec.ofInt_natCast]
  have hstart : (v.view s (-1)).start = v.start + s := rfl
  have hmax := hb.max
  have hzero := hb.start
  obtain ⟨hl, hr⟩ := hv
  unfold Inside Fits
  rw [hlen, hstart]
  have hwrap : (v.len - BitVec.ofNat 32 s).toNat = if s ≤ v.len.toNat then v.len.toNat - s
      else 2 ^ 32 + v.len.toNat - s := by
    split_ifs <;> bv_omega
  rw [hwrap]
  split_ifs with h
  · refine ⟨fun _ => h, fun _ => ⟨⟨?_, ?_⟩, ?_, ?_⟩⟩ <;> omega
  · refine ⟨fun hc => ?_, fun hc => absurd hc h⟩
    have := hc.1.2
    omega

/-- The first byte of a view is a byte of the buffer it was taken from. -/
theorem view_get (hf : v.Fits) (s i : Nat) (l : BitVec 32) : (v.view s l).get i = v.get (s + i) := by
  have hstart : (v.view s l).start.toNat = v.start.toNat + s := by
    show (v.start + s).toNat = _
    have := hf.1
    omega
  rw [Buffer.get]
  rw [hstart, Nat.add_assoc]
  rfl

/-! ### The three layers -/

theorem onRecvViews_contained (hb : b.Datagram) (hv : v.Inside b) :
    Contained b (onRecvViews v) ↔ ¬ (v.get 0 = 0 ∧ v.len.toNat < 5) := by
  rw [onRecvViews]
  split
  · rename_i h0
    have hz : v.get 0 = 0 := UInt8.toNat_inj.mp h0
    have hrest := rest_contained hb hv (s := 5) (by decide)
    rw [contained_taking]
    simp only [contained_nil, and_true, hz, true_and, not_lt]
    exact hrest
  · rename_i h0
    have hz : v.get 0 ≠ 0 := fun h => h0 (congrArg UInt8.toNat h)
    simp [hz]

theorem handleDataViews_contained (hb : b.Datagram) (hv : v.Inside b) (hf : v.Fits) (found : Found) :
    Contained b (handleDataViews found v) ↔
      ¬ (found = .udt ∧ v.get 4 = 0 ∧ 4 ≤ v.len.toNat ∧ v.len.toNat < 9) := by
  unfold handleDataViews
  split_ifs with hlen
  · simp only [contained_nil, true_iff]
    omega
  have h4 := (rest_contained hb hv (s := 4) (by decide)).mpr (by omega)
  cases found with
  | refused => simp
  | idle =>
    rw [contained_taking]
    simpa using h4
  | udt =>
    have hl : (v.view (4 : Nat) (-1)).len.toNat = v.len.toNat - 4 := by
      show (if (-1 : BitVec 32) = -1 then v.len - BitVec.ofInt 32 (4 : Nat) else -1).toNat = _
      rw [if_pos rfl, BitVec.ofInt_natCast]
      bv_omega
    have hg : (v.view (4 : Nat) (-1)).get 0 = v.get 4 := view_get hf 4 0 _
    show Contained b (v.taking (4 : Nat) (-1) onRecvViews) ↔ _
    rw [contained_taking, onRecvViews_contained hb h4.1, hl, hg]
    refine (and_iff_right h4).trans (not_congr ?_)
    rw [and_iff_right rfl]
    exact and_congr_right fun _ => by omega

/-- The length of the payload: in eight bytes, five of padding compute to `-1`, which stands for the
rest, and more of them wrap around. -/
theorem payload_len (hb : b.Datagram) : (b.view 4 (payloadLen b)).len.toNat =
    if b.len.toNat = 8 ∧ 5 ≤ (b.get 3).toNat % 8 then
      if (b.get 3).toNat % 8 = 5 then 4 else 2 ^ 32 + 4 - (b.get 3).toNat % 8
    else b.len.toNat - 4 - (b.get 3).toNat % 8 := by
  have hpos := hb.pos
  have hmax := hb.max
  have hblocks := hb.blocks
  have hpad : (b.get 3).toNat % 8 < 8 := Nat.mod_lt _ (by decide)
  show (if payloadLen b = -1 then b.len - BitVec.ofInt 32 4 else payloadLen b).toNat = _
  have hfour : BitVec.ofInt 32 4 = 4 := rfl
  rw [hfour]
  rw [payloadLen]
  generalize (b.get 3).toNat % 8 = pad at hpad ⊢
  split_ifs <;> bv_omega

theorem payload_contained (hb : b.Datagram) :
    (b.view 4 (payloadLen b)).Inside b ∧ (b.view 4 (payloadLen b)).Fits ↔
      ¬ (b.len.toNat = 8 ∧ 6 ≤ (b.get 3).toNat % 8) := by
  have hstart : (b.view 4 (payloadLen b)).start = 4 := by
    show b.start + 4 = 4
    rw [hb.start]
    rfl
  have hpos := hb.pos
  have hmax := hb.max
  have hblocks := hb.blocks
  have hpad : (b.get 3).toNat % 8 < 8 := Nat.mod_lt _ (by decide)
  unfold Inside Fits
  rw [hstart, hb.start, payload_len hb]
  split_ifs with h h5
  · omega
  · have h6 : 6 ≤ (b.get 3).toNat % 8 := by omega
    simp only [h.1, h6, and_self, not_true_eq_false, iff_false]
    omega
  · omega

end

/-- For a datagram that passes the checksum, every sub-buffer taken of it on the way down to the udt
channel lies inside it, exactly when the datagram is well sized. -/
theorem views_contained_iff (K : Crypto) (connected : Bool) (found : Found) (b : Buffer) (hb : b.Datagram)
    (hsum : checksumOk K b.bytes = true) :
    Contained b (decodeViews K connected found b) ↔ WellSized connected found b := by
  unfold decodeViews WellSized
  rw [if_pos hsum]
  cases typeOf b.bytes with
  | none => simp
  | some t =>
    simp only [Option.isSome_some, true_and, Option.some.injEq]
    rw [contained_taking, payload_contained hb]
    refine and_congr_right fun h => ?_
    have hp := (payload_contained hb).mpr h
    split_ifs with hd
    · have hg : (b.view 4 (payloadLen b)).get 4 = b.get 8 := view_get hb.fits 4 4 _
      rw [handleDataViews_contained hb hp.1 hp.2, hg, payload_len hb]
      apply not_congr
      rw [and_iff_right hd.1, and_iff_right hd.2]
      refine and_congr_right fun _ => and_congr_right fun _ => ?_
      have hpos := hb.pos
      have hblocks := hb.blocks
      have hpad : (b.get 3).toNat % 8 < 8 := Nat.mod_lt _ (by decide)
      split_ifs <;> omega
    · simp only [contained_nil, true_iff]
      exact fun hc => hd ⟨hc.1, hc.2.1⟩

/-- The payload the handlers work on is the view that `decode_packet` takes. -/
theorem payloadOf_eq_subbuf {b : Buffer} (hb : b.Datagram) :
    payloadOf b.bytes ((b.get 3).toNat % 8) = (b.subbuf 4 (payloadLen b)).map Buffer.bytes := by
  have hlen : b.bytes.length = b.len.toNat := by
    have hmax := hb.max
    rw [bytes, hb.start, List.length_take, List.length_drop, b.full]
    exact Nat.min_eq_left hmax
  have hp : BitVec.ofNat 32 b.bytes.length - 4 - BitVec.ofNat 32 ((b.get 3).toNat % 8) = payloadLen b := by
    rw [hlen, BitVec.ofNat_toNat, BitVec.setWidth_eq]
    rfl
  have hdrop : b.bytes.drop 4 = (b.storage.drop 4).take (b.len.toNat - 4) := by
    rw [bytes, hb.start]
    exact List.drop_take
  have hview : (b.view 4 (payloadLen b)).bytes = (b.storage.drop 4).take (b.view 4 (payloadLen b)).len.toNat := by
    rw [bytes]
    show (b.storage.drop (b.start + 4).toNat).take _ = _
    rw [hb.start]
    rfl
  have hfits : (b.view 4 (payloadLen b)).Fits ↔ 4 + (b.view 4 (payloadLen b)).len.toNat ≤ 2048 := by
    rw [Fits]
    have hstart : (b.view 4 (payloadLen b)).start = 0 + 4 := congrArg (· + 4) hb.start
    rw [hstart]
    omega
  have hvlen := payload_len hb
  have hpos := hb.pos
  have hmax := hb.max
  have hblocks := hb.blocks
  have hsent : (payloadLen b).toNat = 2 ^ 32 - 1 ↔ payloadLen b = -1 :=
    ⟨fun h => BitVec.eq_of_toNat_eq h, fun h => congrArg BitVec.toNat h⟩
  unfold payloadOf subbuf
  simp only [hp, hdrop, hsent, hfits]
  by_cases hs : payloadLen b = -1
  · have hl : (b.view 4 (payloadLen b)).len.toNat = b.len.toNat - 4 := by
      show (if payloadLen b = -1 then b.len - 4 else _).toNat = _
      rw [if_pos hs]
      bv_omega
    rw [if_pos hs, if_pos (by omega), Option.map_some, hview, hl]
  · have hl : (b.view 4 (payloadLen b)).len = payloadLen b := if_neg hs
    rw [if_neg hs, hl]
    by_cases h4 : 4 + (payloadLen b).toNat ≤ 2048
    · have hle : (payloadLen b).toNat ≤ b.len.toNat - 4 := by
        rw [hl] at hvlen
        split_ifs at hvlen <;> omega
      rw [if_pos h4, if_pos h4, Option.map_some, hview, hl, List.take_take, Nat.min_eq_left hle]
    · rw [if_neg h4, if_neg h4]
      rfl

def receivedBuffer (d : Bytes) : Buffer where
  storage := d.take 2048 ++ List.replicate (2048 - d.length) 0
  full := by
    rw [List.length_append, List.length_take, List.length_replicate]
    omega
  len := BitVec.ofNat 32 d.length

def zeroCrypto : Crypto :=
  { xorCrypto with superFastHash := fun b => if b.length = 4 then 0x2b21473a else 0x20fd9f3c }

/-- Sixteen bytes: the header, the channel numbers, a udt header and three bytes of data. -/
def headerFrame : Buffer := receivedBuffer ([60, 159, 253, 0] ++ List.replicate 12 0)

theorem views_contained_header : headerFrame.Datagram ∧ checksumOk zeroCrypto headerFrame.bytes = true ∧
    Contained headerFrame (decodeViews zeroCrypto true .udt headerFrame) := by
  have hb : headerFrame.Datagram := by constructor <;> decide
  have hsum : checksumOk zeroCrypto headerFrame.bytes = true := by decide
  exact ⟨hb, hsum, (views_contained_iff zeroCrypto true .udt headerFrame hb hsum).mpr (by decide)⟩

/-- Eight bytes with six of padding, and a data message whose udt data packet has four bytes. -/
def shortFrame : Buffer := receivedBuffer ([58, 71, 33, 6] ++ List.replicate 4 0)

def shortPacket : Buffer := receivedBuffer ([60, 159, 253, 4] ++ List.replicate 12 0)

/-- Both pass the checksum, and both fail an assertion of `subbuf`. -/
theorem views_escape :
    (shortFrame.Datagram ∧ checksumOk zeroCrypto shortFrame.bytes = true ∧
      ¬ Contained shortFrame (decodeViews zeroCrypto true .udt shortFrame) ∧
      shortFrame.subbuf 4 (payloadLen shortFrame) = none) ∧
    (shortPacket.Datagram ∧ checksumOk zeroCrypto shortPacket.bytes = true ∧
      ¬ Contained shortPacket (decodeViews zeroCrypto true .udt shortPacket) ∧
      ((shortPacket.view 4 (payloadLen shortPacket)).view 4 (-1)).subbuf 5 (-1) = none) := by
  refine ⟨⟨?_, ?_, ?_, ?_⟩, ⟨?_, ?_, ?_, ?_⟩⟩
  · constructor <;> decide
  · decide
  · decide
  · decide
  · constructor <;> decide
  · decide
  · decide
  · decide

end Tornet.Connection
