import Mathlib.Data.Nat.Size
import Tornet.Library.Effect
import Tornet.Peer

/-! `tn::connection`: the key exchange, the encrypted messages and the state machine
over them. An external call (socket, database, index, channel callback) may throw. -/
namespace Tornet.Connection
open Library

/-- `connection::state_enum`. -/
inductive State where
  | failed | uninit | generatedDh | receivedDh | authenticated | connected
  deriving DecidableEq, Repr

/-- The values of the enumeration. -/
def State.value : State → Int
  | .failed => -1
  | .uninit => 0
  | .generatedDh => 1
  | .receivedDh => 2
  | .authenticated => 3
  | .connected => 4

/-- `connection::proto_message_type`. -/
inductive MessageType where
  | data | auth | authResp | routeLookup | route | close | updateRank | reqReverseConnect | reqConnect
  deriving DecidableEq, Repr

def MessageType.decode : Nat → Option MessageType
  | 0 => some .data
  | 1 => some .auth
  | 2 => some .authResp
  | 3 => some .routeLookup
  | 4 => some .route
  | 5 => some .close
  | 6 => some .updateRank
  | 7 => some .reqReverseConnect
  | 8 => some .reqConnect
  | _ => none

/-- The fields of an `auth_msg`, in the order the datastream reads them. -/
structure AuthMessage where
  sig : Bytes
  pubk : Bytes
  utc : UInt64
  nonce : UInt64 × UInt64
  ep : Endpoint

/-- What comes from the `fc` library and from the node: hashes, cipher, key exchange,
signatures, and the parsing of the three messages that are read with a datastream
(`none`, or `false` for a lookup, where reading throws). -/
structure Crypto where
  sha1 : Bytes → Sha1
  superFastHash : Bytes → BitVec 32
  decrypt : Bytes → Bytes → Bytes
  dhPublic : Bytes → Bytes
  dhShared : Bytes → Bytes → Bytes
  verify : Bytes → Sha1 → Bytes → Bool
  readAuth : Bytes → Option AuthMessage
  authPayload : Bytes → UInt64 → Bytes
  readsLookup : Bytes → Bool
  readRoute : Bytes → Option Sha1

/-- `fc::diffie_hellman`: the shared key is empty until it is computed. -/
structure Dh where
  priv : Bytes
  pubKey : Bytes
  sharedKey : Bytes := []
  deriving DecidableEq, Repr

/-- What a connection hands to `node::send`. -/
inductive Outgoing where
  | dh (pubKey : Bytes)
  | frame (type : MessageType) (payload key : Bytes)
  deriving DecidableEq, Repr

/-- What one call finds outside: the clock, a fresh private key, the reply that the routing table
leads to (`none` where it overruns its 2048 bytes), and the number of external calls that succeed
before one throws. -/
structure Env where
  now : UInt64 := 0
  fresh : Bytes := []
  reply : Option Bytes := none
  faults : Option Nat := none
  deriving DecidableEq, Repr

/-- Why a handler does not return: an exception, a failed assertion, the use of a key exchange,
shared key or cipher that is not there, or a recursion that does not end. -/
inductive Stop where
  | exception | crash | absent | overflow
  deriving DecidableEq, Repr

/-- `connection` with its `impl`. The last two fields are history variables: the message whose
signature was verified since the state was last `uninit`, with the shared key it was verified
for, and whether a stored record was ever resumed. -/
structure Conn where
  advanceCount : BitVec 16 := 0
  dh : Option Dh := none
  bf : Option Bytes := none
  curState : State := .uninit
  remoteId : Sha1 := 0
  remoteEp : Endpoint
  publicEp : Endpoint := {}
  behindNat : Bool := false
  record : PeerRecord
  routeLookups : List (Sha1 × UInt32 × Option Sha1) := []
  peers : PeerDb
  sent : List Outgoing := []
  env : Env := {}
  verified : Option (Bytes × AuthMessage) := none
  resumed : Bool := false

/-- The constructor for an endpoint without a record. -/
def Conn.init (ep : Endpoint) (db : PeerDb) : Conn where
  remoteEp := ep
  record := .blank ep
  peers := db

abbrev Handler := Eff Conn Stop

def REVERSE_CONNECT_FEE : UInt64 := 2048 * 10
def REQUEST_REVERSE_CONNECT_FEE : UInt64 := 2048 * 11
def REQUEST_NODES_NEAR_FEE : UInt64 := 2048 * 2

def leBytes (n v : Nat) : Bytes := (List.range n).map fun i => UInt8.ofNat (v / 256 ^ i % 256)

def sha1Bytes (h : Sha1) : Bytes := (leBytes 20 h.toNat).reverse

/-- `161 - log2` of a hash, where `log2` counts significant bits. -/
def rankOf (h : Sha1) : UInt8 := UInt8.ofNat (161 - h.toNat.size)

/-- A call that leaves the connection's code; it throws when the faults are used up. -/
def external : Handler Unit := do
  let c ← Eff.get
  match c.env.faults with
  | some 0 => Eff.throw .exception
  | some (k + 1) => Eff.modify fun c => { c with env := { c.env with faults := some k } }
  | none => pure ()

def gotoState (s : State) : Handler Unit :=
  Eff.modify fun c => { c with
    curState := s, verified := if s = .uninit then none else c.verified }

/-- `send( buf, size, t )`. -/
def send (t : MessageType) (payload : Bytes) : Handler Unit := do
  let c ← Eff.get
  if payload.length ≤ 2044 then
    match c.bf with
    | none => Eff.throw .absent
    | some key => do
      external
      Eff.modify fun c => { c with sent := c.sent ++ [.frame t payload key] }
  else Eff.throw .crash

def sendClose : Handler Unit := send .close [1]

def sendAuthResponse (r : Bool) : Handler Unit := do
  let c ← Eff.get
  send .authResp [if r then c.record.rank else 0]

/-- `_peers->store( id, _record )`. -/
def storeRecord (K : Crypto) (id : Sha1) : Handler Unit := do
  let c ← Eff.get
  if K.sha1 c.record.publicKey = id then do
    external
    Eff.modify fun c => { c with peers := c.peers.store id c.record }
  else Eff.throw .exception

/-- `_node.update_dist_index`, the node's business. -/
def updateDistIndex : Handler Unit := external

def closeChannels : Handler Unit := external

def reset (K : Crypto) : Handler Unit := do
  let c ← Eff.get
  Eff.when c.record.valid do
    Eff.modify fun c => { c with record := { c.record with connected := false } }
    storeRecord K c.remoteId
  closeChannels
  updateDistIndex
  gotoState .uninit

def close (K : Crypto) : Handler Unit := do
  let c ← Eff.get
  Eff.when (decide (State.receivedDh.value ≤ c.curState.value)) sendClose
  reset K

/-- `generate_dh`: the private key is drawn until the public one has 56 bytes. -/
def generateDh (K : Crypto) : Handler Unit :=
  Eff.modify fun c => { c with dh := some { priv := c.env.fresh, pubKey := K.dhPublic c.env.fresh } }

def sendDh : Handler Unit := do
  let c ← Eff.get
  match c.dh with
  | none => Eff.throw .absent
  | some dh => do
    external
    Eff.modify fun c => { c with sent := c.sent ++ [.dh dh.pubKey] }

/-- `process_dh`: the shared key is filled up to 56 bytes. -/
def processDh (K : Crypto) (b : Bytes) : Handler Unit := do
  let c ← Eff.get
  match c.dh with
  | none => Eff.throw .absent
  | some dh =>
    let shared := K.dhShared dh.priv (b.take 56)
    let shared := shared ++ List.replicate (56 - shared.length) 0
    Eff.modify fun c => { c with
      dh := some { dh with sharedKey := shared }, bf := some (shared.take 56),
      record := { c.record with bfKey := shared.take 56 } }

def sendAuth (K : Crypto) : Handler Unit := do
  let c ← Eff.get
  match c.dh with
  | none => Eff.throw .absent
  | some dh =>
    if dh.sharedKey.length = 56 then send .auth (K.authPayload dh.sharedKey c.env.now)
    else Eff.throw .absent

/-! ### What sending and storing leave alone -/

/-- A connection without its environment and what it has sent. -/
def Conn.idle (c : Conn) : Conn := { c with env := {}, sent := [] }

/-- A connection without its environment, what it has sent and the database. -/
def Conn.rest (c : Conn) : Conn := { c.idle with peers := ⟨0, []⟩ }

private theorem rest_of_idle {α : Type} {m : Handler α} (h : Eff.Frame Conn.idle m) : Eff.Frame Conn.rest m :=
  h.map (fun c => { c with peers := ⟨0, []⟩ }) fun _ => rfl

theorem external_idle : Eff.Frame Conn.idle external := by
  refine .get_bind fun c => ?_
  split
  · exact .throw _
  · exact .modify fun _ => rfl
  · exact .pure _

theorem external_rest : Eff.Frame Conn.rest external := rest_of_idle external_idle

/-- Where no fault is due, the call returns and changes nothing. -/
theorem external_returns {P : Conn → Prop} (hP : ∀ c, P c → c.env.faults = none) :
    Eff.Post P external (fun _ => P) fun _ _ => False := by
  apply Eff.Post.get_bind
  intro c hc
  rw [hP c hc]
  exact .pure fun t ht => ht ▸ hc

theorem send_idle (t : MessageType) (payload : Bytes) : Eff.Frame Conn.idle (send t payload) := by
  refine .get_bind fun c => .ite ?_ (.throw _)
  split
  · exact .throw _
  · exact .bind external_idle fun _ => .modify fun _ => rfl

theorem send_rest (t : MessageType) (payload : Bytes) : Eff.Frame Conn.rest (send t payload) :=
  rest_of_idle (send_idle t payload)

theorem sendAuthResponse_rest (r : Bool) : Eff.Frame Conn.rest (sendAuthResponse r) :=
  .get_bind fun _ => send_rest _ _

theorem storeRecord_rest (K : Crypto) (id : Sha1) : Eff.Frame Conn.rest (storeRecord K id) :=
  .get_bind fun _ => .ite (.bind external_rest fun _ => .modify fun _ => rfl) (.throw _)

theorem sendDh_rest : Eff.Frame Conn.rest sendDh := by
  refine .get_bind fun c => ?_
  split
  · exact .throw _
  · exact .bind external_rest fun _ => .modify fun _ => rfl

theorem sendAuth_rest (K : Crypto) : Eff.Frame Conn.rest (sendAuth K) := by
  refine .get_bind fun c => ?_
  split
  · exact .throw _
  · exact .ite (send_rest _ _) (.throw _)

end Tornet.Connection
