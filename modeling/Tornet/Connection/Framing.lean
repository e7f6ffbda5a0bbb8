import Tornet.Connection.Authentication

/-! The datagrams of a connection: what `send` and `send_dh` put on the wire, how
`decode_packet` takes a frame apart, and how the handlers tell the two kinds apart by length. -/
namespace Tornet.Connection
open Library

/-- The value of a `proto_message_type`. -/
def MessageType.value : MessageType → Nat
  | .data => 0
  | .auth => 1
  | .authResp => 2
  | .routeLookup => 3
  | .route => 4
  | .close => 5
  | .updateRank => 6
  | .reqReverseConnect => 7
  | .reqConnect => 8

/-- The number of zero bytes `send` appends. -/
def padLength (size : Nat) : Nat :=
  let pad := 8 - (size + 4) % 8
  if pad = 8 then 0 else pad

/-- The fourth byte of a frame: the pad in the low three bits, the type above them. -/
def headerByte (pad : Nat) (t : MessageType) : UInt8 := UInt8.ofNat pad ||| (UInt8.ofNat t.value <<< 3)

/-- The buffer of `send` before it is encrypted. -/
def plainFrame (K : Crypto) (t : MessageType) (payload : Bytes) : Bytes :=
  let data := payload ++ List.replicate (padLength payload.length) 0
  (leBytes 4 (K.superFastHash data).toNat).take 3 ++ [headerByte (padLength payload.length) t] ++ data

/-- What `send_dh` puts on the wire; `r` is the value of `rand()`. -/
def dhDatagram (pubKey : Bytes) (r : Nat) : Bytes := pubKey ++ List.replicate (r % 7 + 1) 0

/-- The bytes of a datagram; `encrypt` is the cipher with its chain reset. -/
def Outgoing.datagram (K : Crypto) (encrypt : Bytes → Bytes → Bytes) (r : Nat) : Outgoing → Bytes
  | .dh pubKey => dhDatagram pubKey r
  | .frame t payload key => encrypt key (plainFrame K t payload)

/-- `uint8_t( b[3] >> 3 )`: the byte is a signed `char`, so its sign is shifted in. -/
def shiftedType (h : UInt8) : Nat := (h.toBitVec.sshiftRight 3).toNat

/-- A byte with its sign bit set has no type of the switch either way. -/
theorem typeOf_eq_shifted (d : Bytes) : typeOf d = MessageType.decode (shiftedType (d.getD 3 0)) := by
  have hall : ∀ i : Fin 256, MessageType.decode (i.val / 8) = MessageType.decode (shiftedType (UInt8.ofNat i.val)) := by
    decide +kernel
  have h := hall ⟨(d.getD 3 0).toNat, (d.getD 3 0).toNat_lt⟩
  rw [UInt8.ofNat_toNat] at h
  exact h

/-! ### Lengths -/

theorem padLength_lt (size : Nat) : padLength size < 8 := by
  unfold padLength
  simp only
  split_ifs <;> omega

private theorem padLength_mod (size : Nat) : (size + padLength size + 4) % 8 = 0 := by
  unfold padLength
  simp only
  split_ifs <;> omega

private theorem headerByte_pad {pad : Nat} (hp : pad < 8) (t : MessageType) : (headerByte pad t).toNat % 8 = pad := by
  have hall : ∀ i : Fin 8, (headerByte i.val t).toNat % 8 = i.val := by
    cases t <;> decide
  exact hall ⟨pad, hp⟩

private theorem headerByte_type {pad : Nat} (hp : pad < 8) (t : MessageType) :
    MessageType.decode ((headerByte pad t).toNat / 8) = some t := by
  have hall : ∀ i : Fin 8, MessageType.decode ((headerByte i.val t).toNat / 8) = some t := by
    cases t <;> decide
  exact hall ⟨pad, hp⟩

section
variable (K : Crypto) (t : MessageType) (payload : Bytes)

private theorem checksum_length : ((leBytes 4 (K.superFastHash payload).toNat).take 3).length = 3 := by
  simp [leBytes]

private theorem plainFrame_length : (plainFrame K t payload).length = payload.length + padLength payload.length + 4 := by
  simp only [plainFrame, List.length_append, checksum_length, List.length_singleton, List.length_replicate]
  omega

/-- Padding reaches at most the 2048 bytes of the buffer. -/
theorem plainFrame_bounds (hp : payload.length ≤ 2044) : (plainFrame K t payload).length % 8 = 0 ∧
    0 < (plainFrame K t payload).length ∧ (plainFrame K t payload).length ≤ 2048 := by
  have hmod := padLength_mod payload.length
  have hlt := padLength_lt payload.length
  rw [plainFrame_length]
  omega

/-- The frame split at its header byte. -/
private theorem plainFrame_drop : (plainFrame K t payload).drop 4 =
    payload ++ List.replicate (padLength payload.length) 0 := by
  rw [plainFrame]
  apply List.drop_left'
  rw [List.length_append, checksum_length]
  rfl

private theorem plainFrame_header : (plainFrame K t payload).getD 3 0 = headerByte (padLength payload.length) t := by
  rw [plainFrame]
  rw [List.getD_eq_getElem?_getD, List.append_assoc, List.getElem?_append_right (checksum_length K _).le,
    checksum_length]
  rfl

theorem plainFrame_checksum : checksumOk K (plainFrame K t payload) = true := by
  rw [checksumOk]
  rw [plainFrame_drop]
  simp only [decide_eq_true_eq]
  rw [plainFrame]
  rw [List.append_assoc, List.take_left' (checksum_length K _)]

theorem plainFrame_type : typeOf (plainFrame K t payload) = some t := by
  rw [typeOf]
  rw [plainFrame_header]
  exact headerByte_type (padLength_lt _) t

theorem plainFrame_payload (hp : payload.length ≤ 2044) :
    payloadOf (plainFrame K t payload) (((plainFrame K t payload).getD 3 0).toNat % 8) = some payload := by
  have hlt := padLength_lt payload.length
  have hlen : (BitVec.ofNat 32 (plainFrame K t payload).length - 4 -
      BitVec.ofNat 32 (padLength payload.length)).toNat = payload.length := by
    rw [plainFrame_length]
    bv_omega
  rw [plainFrame_header, headerByte_pad hlt]
  rw [payloadOf]
  simp only [hlen, plainFrame_drop]
  rw [if_neg (by omega), if_pos (by omega), List.take_left' rfl]

/-- The byte behind the header is the first of the payload, or a zero of the padding. -/
theorem plainFrame_first : (plainFrame K t payload).getD 4 0 = payload.headD 0 := by
  have hd : (plainFrame K t payload).getD 4 0 = ((plainFrame K t payload).drop 4).headD 0 := by
    simp only [List.headD_eq_head?_getD, List.head?_drop, List.getD_eq_getElem?_getD]
  rw [hd, plainFrame_drop]
  cases payload with
  | nil => rfl
  | cons x rest => rfl

end

/-! ### The length tests of the handlers -/

/-- Without a record `handle_uninit` is the start of an exchange. -/
theorem handleUninit_new (K : Crypto) (fuel : Nat) (b : Bytes) {c : Conn}
    (hnew : c.peers.fetchByEndpoint c.remoteEp = none) : handleUninit K (fuel + 1) b c = startDh K b c := by
  rw [handleUninit, Eff.get_bind_apply, hnew]

/-- `decode_packet` of a frame it can decrypt: the switch gets the type and the payload of `send`. -/
theorem decodePacket_frame (K : Crypto) (t : MessageType) {payload key b : Bytes} (hp : payload.length ≤ 2044)
    (hdec : K.decrypt key b = plainFrame K t payload) {c : Conn} (hbf : c.bf = some key) :
    decodePacket K b c = (do
      Eff.modify fun c => { c with record := { c.record with lastContact := c.env.now } }
      let ok ← dispatch K t payload (payload.headD 0)
      pure (ok, plainFrame K t payload) : Handler (Bool × Bytes)) c := by
  rw [decodePacket, Eff.modify_bind_apply, Eff.modify_bind_apply, Eff.get_bind_apply, hbf]
  simp only [hdec]
  rw [if_pos (plainFrame_checksum K t payload), handleFrame, plainFrame_type]
  simp only [plainFrame_payload K t payload hp, plainFrame_first]

def rankKey : Bytes := (List.range 56).map fun i => UInt8.ofNat (i + 1)

def rankConn : Conn := { Conn.init peerEp ⟨0, []⟩ with bf := some rankKey }

end Tornet.Connection
