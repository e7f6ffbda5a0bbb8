import Tornet.Connection.Basic
import Tornet.Library.Runs
import Tornet.Node.Kbucket

/-! The node's index of connected peers: `_dist_to_con`, the buckets, and the operations of a
connection that change its state or its remote id. -/
namespace Tornet.Node
open Library Runs Connection

/-- The fields of a connection that the index depends on. -/
structure Link where
  state : State := .uninit
  remoteId : Sha1 := 0
  deriving DecidableEq, Repr

/-- The part of `node::impl` that `update_dist_index` works on; a connection's address is its
position in `conns`. -/
structure Index where
  id : Sha1
  conns : List Link := []
  distToCon : Sha1 → Option ConnId := fun _ => none
  kbuckets : Kbucket

/-- After `node::init`. -/
def Index.init (id : Sha1) (count : BitVec 32) : Index where
  id := id
  kbuckets := .init id count

namespace Index

def put (s : Index) (c : ConnId) (l : Link) : Index := { s with conns := s.conns.set c l }

/-- `update_dist_index( nid, 0 )`. -/
def clearDistIndex (s : Index) (nid : Sha1) : Option Index :=
  match s.distToCon (nid ^^^ s.id) with
  | none => some s
  | some d => do
    let l ← s.conns[d]?
    let k ← s.kbuckets.remove d l.remoteId
    some { s with kbuckets := k, distToCon := Function.update s.distToCon (nid ^^^ s.id) none }

/-- `connection::reset`. -/
def reset (s : Index) (c : ConnId) : Option Index := do
  let l ← s.conns[c]?
  let s ← s.clearDistIndex l.remoteId
  some (s.put c { l with state := .uninit })

/-- `connection::close`: the message to the peer apart, a reset. -/
def close (s : Index) (c : ConnId) : Option Index := s.reset c

/-- `update_dist_index`. Closing the connection found may erase the entry that the iterator
points to; the assignment through it is then undefined. -/
def updateDistIndex (s : Index) (nid : Sha1) : Option ConnId → Option Index
  | none => s.clearDistIndex nid
  | some c =>
    match s.distToCon (nid ^^^ s.id) with
    | none => do
      let l ← s.conns[c]?
      let k ← s.kbuckets.add c l.remoteId
      some { s with kbuckets := k, distToCon := Function.update s.distToCon (nid ^^^ s.id) (some c) }
    | some d =>
      if d = c then some s
      else do
        let s ← s.close d
        match s.distToCon (nid ^^^ s.id) with
        | none => none
        | some _ => some { s with distToCon := Function.update s.distToCon (nid ^^^ s.id) (some c) }

/-- A connection takes a remote id, enters the index and is connected: `handle_auth_msg`,
and with a stored record `handle_uninit` and the constructor. -/
def connect (s : Index) (c : ConnId) (id : Sha1) : Option Index := do
  let l ← s.conns[c]?
  let s ← (s.put c { l with remoteId := id }).updateDistIndex id (some c)
  some (s.put c { state := .connected, remoteId := id })

end Index

def decodes (s : State) : Bool := s = .receivedDh || s = .authenticated || s = .connected

/-- The transitions of the key exchange, and the way back after a message that fails. -/
def keyExchange : State → State → Bool
  | .uninit, .generatedDh | .uninit, .receivedDh | .generatedDh, .receivedDh | .receivedDh, .uninit => true
  | _, _ => false

/-- The operations on connections: `create` and `resume` with the id of the record they
find, an auth message that verifies, an auth response, the tenth `advance`. -/
inductive Op where
  | create (found : Option Sha1)
  | resume (c : ConnId) (id : Sha1)
  | exchange (c : ConnId) (s : State)
  | authenticate (c : ConnId) (id : Sha1)
  | authResp (c : ConnId) (accepted : Bool)
  | reset (c : ConnId)
  | close (c : ConnId)
  | giveUp (c : ConnId)
  deriving DecidableEq, Repr

def Index.create (s : Index) : Index := { s with conns := s.conns ++ [{}] }

/-- One operation; `none` where the program makes no such call or its behaviour is undefined. -/
def step (s : Index) : Op → Option Index
  | .create none => some s.create
  | .create (some id) => s.create.connect s.conns.length id
  | .resume c id => do
    let l ← s.conns[c]?
    if l.state = .uninit then s.connect c id else none
  | .exchange c st => do
    let l ← s.conns[c]?
    if keyExchange l.state st then some (s.put c { l with state := st }) else none
  | .authenticate c id => do
    let l ← s.conns[c]?
    if decodes l.state then s.connect c id else none
  | .authResp c accepted => do
    let l ← s.conns[c]?
    if decodes l.state then
      if accepted then some (s.put c { l with state := .connected }) else s.reset c
    else none
  | .reset c => s.reset c
  | .close c => s.close c
  | .giveUp c => do
    let l ← s.conns[c]?
    some (s.put c { l with state := .failed })

/-- The index, the buckets and the states of the connections agree. -/
structure Coherent (s : Index) : Prop where
  entry : ∀ d c, s.distToCon d = some c →
    ∃ l, s.conns[c]? = some l ∧ l.state = .connected ∧ l.remoteId ^^^ s.id = d
  own : ∀ c l, s.conns[c]? = some l → l.state = .connected → s.distToCon (l.remoteId ^^^ s.id) = some c
  placed : ∀ d c, s.distToCon d = some c →
    ∃ l b, s.conns[c]? = some l ∧ s.kbuckets.bucketFor l.remoteId = some b ∧
      (s.kbuckets.buckets b).count c = 1
  listed : ∀ b c, c ∈ s.kbuckets.buckets b →
    ∃ d l, s.distToCon d = some c ∧ s.conns[c]? = some l ∧ s.kbuckets.bucketFor l.remoteId = some b
  counted : s.kbuckets.count.toNat = s.kbuckets.total

/-- What holds between operations; `set_id` gave the buckets the node's own id. -/
structure Inv (s : Index) : Prop extends Coherent s where
  sameId : s.kbuckets.nodeId = s.id

theorem inv_init (id : Sha1) : Inv (Index.init id 0) where
  entry _ _ h := by cases h
  own _ _ h := by cases h
  placed _ _ h := by cases h
  listed _ _ h := by cases h
  counted := by simp [Index.init, Kbucket.init, Kbucket.total]
  sameId := rfl

end Tornet.Node
