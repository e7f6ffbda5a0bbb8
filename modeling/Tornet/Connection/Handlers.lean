import Tornet.Connection.Basic

/-! The message handlers of `connection` and the handlers of its states. -/
namespace Tornet.Connection
open Library

/-- `buffer::subbuf( 4, size - 4 - pad )` of a frame: the length is computed in 32 bits,
`-1` stands for the rest, and what leaves the 2048 bytes of storage fails an assertion. -/
def payloadOf (d : Bytes) (pad : Nat) : Option Bytes :=
  let len := (BitVec.ofNat 32 d.length - 4 - BitVec.ofNat 32 pad).toNat
  if len = 2 ^ 32 - 1 then some (d.drop 4)
  else if 4 + len ≤ 2048 then some ((d.drop 4).take len)
  else none

def handleDataMsg (K : Crypto) : Handler Bool := do
  let c ← Eff.get
  if c.curState = .connected then do
    external
    pure true
  else do
    close K
    pure false

/-- The request `find_nodes_near` and the resend loop write. -/
def lookupRequest (l : Sha1 × UInt32 × Option Sha1) : Bytes :=
  sha1Bytes l.1 ++ leBytes 4 l.2.1.toNat ++ match l.2.2 with
    | none => [0]
    | some limit => 1 :: sha1Bytes limit

def resendLookups : List (Sha1 × UInt32 × Option Sha1) → Handler Unit
  | [] => pure ()
  | l :: rest => do
    send .routeLookup (lookupRequest l)
    resendLookups rest

def authenticatedRecord (K : Crypto) (m : AuthMessage) (shared : Bytes) (c : Conn) : PeerRecord :=
  let r := (c.peers.fetch (K.sha1 m.pubk) c.record).2
  { r with
    bfKey := shared.take 56
    publicKey := m.pubk ++ r.publicKey.drop m.pubk.length
    nonce := m.nonce
    lastEp := c.remoteEp
    firstContact := if r.firstContact = 0 then c.env.now else r.firstContact
    lastContact := c.env.now
    rank := rankOf (K.sha1 (leBytes 8 m.nonce.1.toNat ++ leBytes 8 m.nonce.2.toNat ++ m.pubk)) }

/-- `handle_auth_msg`. -/
def handleAuthMsg (K : Crypto) (payload : Bytes) : Handler Bool :=
  match K.readAuth payload with
  | none => Eff.throw .exception
  | some m => do
    Eff.modify fun c => { c with publicEp := m.ep }
    let c ← Eff.get
    match c.dh with
    | none => Eff.throw .absent
    | some dh =>
      if dh.sharedKey.length ≠ 56 then Eff.throw .absent
      else if K.verify m.pubk (K.sha1 (dh.sharedKey ++ leBytes 8 m.utc.toNat)) m.sig then do
        Eff.modify fun c => { c with
          behindNat := c.publicEp.ip ≠ c.remoteEp.ip
          remoteId := K.sha1 m.pubk
          verified := some (dh.sharedKey, m) }
        Eff.modify fun c => { c with record := authenticatedRecord K m dh.sharedKey c }
        sendAuthResponse true
        Eff.modify fun c => { c with record := { c.record with connected := true } }
        storeRecord K (K.sha1 m.pubk)
        updateDistIndex
        gotoState .connected
        resendLookups c.routeLookups
        pure true
      else do
        sendAuthResponse false
        sendClose
        pure false

/-- `handle_auth_resp_msg`, with the first byte of the message. It looks at no state. -/
def handleAuthRespMsg (K : Crypto) (first : UInt8) : Handler Bool :=
  if first ≠ 0 then do
    Eff.modify fun c => { c with record := { c.record with publishedRank := first } }
    gotoState .connected
    pure true
  else do
    reset K
    pure false

/-- The record after a better nonce: the message starts with its two words. -/
def rankedRecord (payload : Bytes) (rank : UInt8) (r : PeerRecord) : PeerRecord :=
  let word (bs : Bytes) : UInt64 := UInt64.ofNat (bs.foldr (fun b n => b.toNat + 256 * n) 0)
  { r with rank := rank, nonce := (word (payload.take 8), word ((payload.drop 8).take 8)) }

def handleUpdateRankMsg (K : Crypto) (payload : Bytes) : Handler Bool :=
  if payload.length < 16 then pure false
  else do
    let c ← Eff.get
    let newRank := rankOf (K.sha1 (payload.take 16 ++ c.record.publicKey))
    Eff.when (decide (c.record.rank < newRank)) do
      Eff.modify fun c => { c with record := rankedRecord payload newRank c.record }
      sendAuthResponse true
      storeRecord K c.remoteId
    pure true

def handleCloseMsg (K : Crypto) : Handler Bool := do
  reset K
  pure true

/-- `handle_lookup_msg`: the fee is entered once `find_nodes_near` has returned, before the reply
is built. -/
def handleLookupMsg (K : Crypto) (payload : Bytes) : Handler Bool :=
  if K.readsLookup payload then do
    external
    Eff.modify fun c => { c with
      record := { c.record with sentCredit := c.record.sentCredit + REQUEST_NODES_NEAR_FEE } }
    let c ← Eff.get
    match c.env.reply with
    | none => Eff.throw .exception
    | some reply => do
      send .route reply
      pure true
  else Eff.throw .exception

def handleRouteMsg (K : Crypto) (payload : Bytes) : Handler Bool :=
  match K.readRoute payload with
  | none => Eff.throw .exception
  | some target => do
    Eff.modify fun c => { c with routeLookups := c.routeLookups.filter fun l => l.1 ≠ target }
    pure true

def handleRequestReverseConnectMsg : Handler Bool := do
  external
  Eff.modify fun c => { c with
    record := { c.record with sentCredit := c.record.sentCredit + REQUEST_REVERSE_CONNECT_FEE } }
  pure true

def handleRequestConnectMsg : Handler Bool := do
  external
  Eff.modify fun c => { c with
    record := { c.record with sentCredit := c.record.sentCredit + REVERSE_CONNECT_FEE } }
  pure true

/-- The cases of the switch of `decode_packet`. -/
def dispatch (K : Crypto) (t : MessageType) (payload : Bytes) (first : UInt8) : Handler Bool :=
  match t with
  | .data => handleDataMsg K
  | .auth => handleAuthMsg K payload
  | .authResp => handleAuthRespMsg K first
  | .routeLookup => handleLookupMsg K payload
  | .route => handleRouteMsg K payload
  | .close => handleCloseMsg K
  | .updateRank => handleUpdateRankMsg K payload
  | .reqReverseConnect => handleRequestReverseConnectMsg
  | .reqConnect => handleRequestConnectMsg

def checksumOk (K : Crypto) (d : Bytes) : Bool :=
  (leBytes 4 (K.superFastHash (d.drop 4)).toNat).take 3 = d.take 3

def typeOf (d : Bytes) : Option MessageType := MessageType.decode ((d.getD 3 0).toNat / 8)

/-- The switch of `decode_packet`: only its nine cases take the payload, an unknown type is logged
and ignored. -/
def handleFrame (K : Crypto) (d : Bytes) : Handler Bool :=
  match typeOf d with
  | none => pure true
  | some t => match payloadOf d ((d.getD 3 0).toNat % 8) with
    | none => Eff.throw .crash
    | some payload => dispatch K t payload (d.getD 4 0)

section
variable {K : Crypto} {d : Bytes} {P : Conn → Prop} {Q : Bool → Conn → Prop}

/-- A frame of unknown type is left alone; one of a known type ends the process or gets to its handler. -/
theorem handleFrame_post {E : Stop → Conn → Prop} (hskip : ∀ c, P c → Q true c) (hcrash : ∀ c, P c → E .crash c)
    (hcase : ∀ t payload, typeOf d = some t → payloadOf d ((d.getD 3 0).toNat % 8) = some payload →
      Eff.Post P (dispatch K t payload (d.getD 4 0)) Q E) : Eff.Post P (handleFrame K d) Q E := by
  rw [handleFrame]
  split
  · exact .pure hskip
  · rename_i t ht
    split
    · exact .throw hcrash
    · rename_i payload hpay
      exact hcase t payload ht hpay

theorem handleFrame_triple {E : Conn → Prop} (hskip : ∀ c, P c → Q true c) (hcrash : ∀ c, P c → E c)
    (hcase : ∀ t payload, typeOf d = some t → Eff.Triple P (dispatch K t payload (d.getD 4 0)) Q E) :
    Eff.Triple P (handleFrame K d) Q E :=
  Eff.triple_iff_post.mpr (handleFrame_post hskip hcrash fun t payload ht _ => Eff.triple_iff_post.mp (hcase t payload ht))

end

/-- `decode_packet`. The datagram is decrypted in place, so the caller goes on with the
decrypted bytes. -/
def decodePacket (K : Crypto) (b : Bytes) : Handler (Bool × Bytes) := do
  Eff.modify fun c => { c with record := { c.record with lastContact := c.env.now } }
  let c ← Eff.get
  match c.bf with
  | none => Eff.throw .absent
  | some key =>
    let d := K.decrypt key b
    if checksumOk K d then do
      let ok ← handleFrame K d
      pure (ok, d)
    else pure (false, d)

/-- `0 == b.size() % 8 && decode_packet(b)`. -/
def tryDecode (K : Crypto) (b : Bytes) : Handler (Bool × Bytes) :=
  if b.length % 8 = 0 then decodePacket K b else pure (false, b)

def isDh (b : Bytes) : Bool := b.length % 8 ≠ 0 && 56 < b.length

/-- The part of `handle_uninit` for an endpoint without a record. -/
def startDh (K : Crypto) (b : Bytes) : Handler Unit := do
  generateDh K
  sendDh
  if isDh b then do
    processDh K b
    sendAuth K
    gotoState .receivedDh
  else gotoState .generatedDh

def unlinkedRecord (r : PeerRecord) : PeerRecord :=
  { r with lastEp := {}, bfKey := List.replicate 56 0, connected := false }

/-- The part of `handle_connected` behind a packet that could not be decoded. -/
def forgetPeer (K : Crypto) : Handler Unit := do
  let c ← Eff.get
  Eff.when c.record.valid do
    Eff.modify fun c => { c with record := unlinkedRecord c.record }
    storeRecord K c.remoteId
  Eff.modify fun c => { c with record := .blank c.remoteEp }
  reset K

mutual

/-- `handle_uninit`. The fuel bounds its recursion through `handle_connected`. -/
def handleUninit (K : Crypto) : Nat → Bytes → Handler Unit
  | 0, _ => Eff.throw .overflow
  | fuel + 1, b => do
    let c ← Eff.get
    match c.peers.fetchByEndpoint c.remoteEp with
    | some (id, r) => do
      Eff.modify fun c => { c with
        remoteId := id, record := r, bf := some r.bfKey, resumed := true }
      updateDistIndex
      Eff.modify fun c => { c with record := { c.record with connected := true } }
      storeRecord K id
      gotoState .connected
      handleConnected K fuel b
    | none => startDh K b

/-- `handle_connected`. -/
def handleConnected (K : Crypto) : Nat → Bytes → Handler Unit
  | 0, _ => Eff.throw .overflow
  | fuel + 1, b => do
    let r ← tryDecode K b
    if r.1 then pure ()
    else do
      forgetPeer K
      handleUninit K fuel r.2

end

def handleGeneratedDh (K : Crypto) (b : Bytes) : Handler Unit :=
  if isDh b then do
    processDh K b
    sendAuth K
    gotoState .receivedDh
  else sendDh

def handleReceivedDh (K : Crypto) (fuel : Nat) (b : Bytes) : Handler Unit :=
  if isDh b then do
    sendDh
    processDh K b
    sendAuth K
  else if b.length % 8 = 0 then do
    let r ← decodePacket K b
    if r.1 then pure ()
    else do
      gotoState .uninit
      handleUninit K fuel r.2
  else pure ()

def handleAuthenticated (K : Crypto) (fuel : Nat) (b : Bytes) : Handler Unit :=
  if b.length % 8 = 0 then do
    let r ← decodePacket K b
    if r.1 then pure ()
    else do
      reset K
      handleUninit K fuel r.2
  else if 56 < b.length then do
    reset K
    handleUninit K fuel b
  else pure ()

/-- `handle_packet`. -/
def handlePacket (K : Crypto) (fuel : Nat) (b : Bytes) : Handler Unit := do
  let c ← Eff.get
  match c.curState with
  | .failed => pure ()
  | .uninit => handleUninit K fuel b
  | .generatedDh => handleGeneratedDh K b
  | .receivedDh => handleReceivedDh K fuel b
  | .authenticated => handleAuthenticated K fuel b
  | .connected => handleConnected K fuel b

/-- `advance`: the tenth call in a row that does not find the connection connected fails it. -/
def advance (K : Crypto) : Handler Unit := do
  Eff.modify fun c => { c with advanceCount := c.advanceCount + 1 }
  let c ← Eff.get
  if 10 ≤ c.advanceCount.toNat then gotoState .failed
  else match c.curState with
    | .failed => pure ()
    | .uninit => do
      generateDh K
      sendDh
      gotoState .generatedDh
    | .generatedDh => sendDh
    | .receivedDh => do
      sendDh
      sendAuth K
    | .authenticated => sendAuthResponse true
    | .connected => Eff.modify fun c => { c with advanceCount := 0 }

/-- What happens to a connection: a datagram, a call of `advance` or of `close`. -/
inductive Event where
  | packet (b : Bytes) (env : Env)
  | advance (env : Env)
  | close (env : Env)
  deriving DecidableEq, Repr

def Event.env : Event → Env
  | .packet _ env | .advance env | .close env => env

def Event.handler (K : Crypto) (fuel : Nat) : Event → Handler Unit
  | .packet b _ => handlePacket K fuel b
  | .advance _ => Connection.advance K
  | .close _ => Connection.close K

/-- An exception ends the call but not the connection; a crash ends the process. -/
def step (K : Crypto) (fuel : Nat) (c : Conn) (e : Event) : Option Conn :=
  match e.handler K fuel { c with env := e.env } with
  | (.error .crash, _) => none
  | (.error .absent, _) => none
  | (.error .overflow, _) => none
  | (.error .exception, c') => some c'
  | (.ok _, c') => some c'

theorem step_final {K : Crypto} {fuel : Nat} {c c' : Conn} {e : Event} (hs : step K fuel c e = some c') :
    c' = (e.handler K fuel).final { c with env := e.env } := by
  rw [step] at hs
  rw [Eff.final]
  split at hs <;> rename_i heq <;> rw [heq] <;> cases hs <;> rfl

end Tornet.Connection
