import Tornet.Connection.Handlers
import Tornet.Connection.Lookups
import Tornet.Library.Codec
import Tornet.Node.Near

/-! The messages of a route lookup: the request of `find_nodes_near`, the reply `handle_lookup_msg`
builds from the routing table, and the hosts `handle_route_msg` makes of it. -/
namespace Tornet.Connection.Routes
open Library Node.Near

def sha1Format : Codec Sha1 := Codec.beWord 20

def uint32Format : Codec (BitVec 32) := Codec.word 4

def uint16Format : Codec (BitVec 16) := Codec.word 2

/-! ### The request -/

/-- The fields of a request, in the order both writers have them; `n` is 32 bits in a `uint32_t` as in
the `int` of a `route_lookup_request`. -/
def requestFields (target : Sha1) (n : BitVec 32) (limit : Option Sha1) : List Bytes :=
  [sha1Format.pack target, uint32Format.pack n, [if limit.isSome then 1 else 0]] ++ limit.toList.map sha1Format.pack

/-- The buffer of a request, which is sent as a whole: 45 bytes, or 25 without a limit. -/
def requestRoom (limit : Option Sha1) : Nat := if limit.isSome then 45 else 25

/-- What `find_nodes_near` sends. -/
def findRequest (throws : Bool) (target : Sha1) (n : UInt32) (limit : Option Sha1) : Option Bytes :=
  Codec.putAll throws (requestRoom limit) [] (requestFields target n.toBitVec limit)

/-- `route_lookup_request::n` is an `int`. -/
def storedN (n : UInt32) : Int := n.toBitVec.toInt

/-- What the loop of `handle_auth_msg` sends for a lookup that is registered. -/
def resendRequest (throws : Bool) (target : Sha1) (n : Int) (limit : Option Sha1) : Option Bytes :=
  Codec.putAll throws (requestRoom limit) [] (requestFields target (BitVec.ofInt 32 n) limit)

/-- The head of `handle_lookup_msg`; any byte but zero announces a limit. -/
def readRequest (b : Bytes) : Option (Sha1 × UInt32 × Option Sha1) := do
  let (target, rest) ← sha1Format.unpack b
  let (num, rest) ← uint32Format.unpack rest
  let (l, rest) ← Codec.byte.unpack rest
  if l = 0 then some (target, UInt32.ofBitVec num, none)
  else do
    let (limit, _) ← sha1Format.unpack rest
    some (target, UInt32.ofBitVec num, some limit)

/-! ### The reply -/

def hostFields (h : Tornet.Host) : List Bytes :=
  [sha1Format.pack h.id, uint32Format.pack h.ep.ip, uint16Format.pack h.ep.port, [UInt8.ofNat h.natHosts.length]]

def replyFields (target : Sha1) (hosts : List Tornet.Host) : List Bytes :=
  [sha1Format.pack target, uint32Format.pack (BitVec.ofNat 32 hosts.length)] ++ hosts.flatMap hostFields

/-- `send` asserts that a message fits a packet. -/
def sendable (payload : Bytes) : Option Bytes := if payload.length ≤ 2044 then some payload else none

/-- `handle_lookup_msg` on a routing table: the message it sends. `none` is an exception, an access outside
the buckets or a failed assertion. -/
def handleLookup (throws : Bool) (r : Table) (b : Bytes) : Option Bytes := do
  let (target, num, limit) ← readRequest b
  let hosts ← r.findNodesNear target num limit
  let reply ← Codec.putAll throws 2048 [] (replyFields target hosts)
  sendable reply

/-- The loop of `handle_route_msg`, with the endpoint of the connection. -/
def readHosts (remoteEp : Endpoint) : Nat → Bytes → Option (List Tornet.Host)
  | 0, _ => some []
  | num + 1, b => do
    let (nid, rest) ← sha1Format.unpack b
    let (ip, rest) ← uint32Format.unpack rest
    let (port, rest) ← uint16Format.unpack rest
    let (isNat, rest) ← Codec.byte.unpack rest
    let table ← readHosts remoteEp num rest
    some ({ id := nid, ep := ⟨ip, port⟩, natHosts := if isNat = 0 then [] else [remoteEp] } :: table)

/-- `handle_route_msg` on the lookups of the connection. -/
def handleRoute (remoteEp : Endpoint) (s : Lookups.State) (b : Bytes) : Option Lookups.State := do
  let (target, rest) ← sha1Format.unpack b
  let (num, rest) ← uint32Format.unpack rest
  if s.routeLookups target = none then some s
  else do
    let table ← readHosts remoteEp num.toNat rest
    some (s.handleRouteMsg target table)

/-- The host a requester has to see for a connection that was found: the same node at the same endpoint, to
be introduced by the responder if it is behind a NAT. -/
def seenFrom (remoteEp : Endpoint) (c : Contact) : Tornet.Host :=
  { id := c.remoteId, ep := c.endpoint, natHosts := if c.behindNat then [remoteEp] else [] }

/-- Both writers of a request are read back to its target, `n` and limit. -/
def RequestRead (throws : Bool) (target : Sha1) (n : UInt32) (limit : Option Sha1) : Prop :=
  (findRequest throws target n limit).bind readRequest = some (target, n, limit) ∧
    (resendRequest throws target (storedN n) limit).bind readRequest = some (target, n, limit)

/-- The request is answered by one message of at most 2044 bytes, from which a requester with a lookup for
the target reads the nodes that were found. -/
def Answered (throws : Bool) (r : Table) (remoteEp : Endpoint) (target : Sha1) (n : UInt32) (limit : Option Sha1) :
    Prop :=
  ∃ (contacts : List Contact) (reply : Bytes),
    r.findNodesNear target n limit = some (contacts.map Contact.host) ∧
    (findRequest throws target n limit).bind (handleLookup throws r) = some reply ∧ reply.length ≤ 2044 ∧
    ∀ s : Lookups.State, s.routeLookups target ≠ none →
      handleRoute remoteEp s reply = some (s.handleRouteMsg target (contacts.map (seenFrom remoteEp)))

/-! ### Sizes -/

theorem length_sha1Format (h : Sha1) : (sha1Format.pack h).length = 20 := by
  simp [sha1Format, Codec.beWord, Codec.fixed, Codec.length_leBytes]

theorem length_uint32Format (x : BitVec 32) : (uint32Format.pack x).length = 4 := by
  simp [uint32Format, Codec.word, Codec.fixed, Codec.length_leBytes]

private theorem length_uint16Format (x : BitVec 16) : (uint16Format.pack x).length = 2 := by
  simp [uint16Format, Codec.word, Codec.fixed, Codec.length_leBytes]

/-- A request fills its buffer. -/
theorem length_requestFields (target : Sha1) (n : BitVec 32) (limit : Option Sha1) :
    (requestFields target n limit).flatten.length = requestRoom limit := by
  cases limit <;> simp [requestFields, requestRoom, length_sha1Format, length_uint32Format]

theorem length_hostFields (hosts : List Tornet.Host) : (hosts.flatMap hostFields).flatten.length = 27 * hosts.length := by
  induction hosts with
  | nil => rfl
  | cons h rest ih =>
    rw [List.flatMap_cons, List.flatten_append, List.length_append, ih, List.length_cons]
    simp only [hostFields, List.flatten_cons, List.flatten_nil, List.length_append, length_sha1Format,
      length_uint32Format, length_uint16Format, List.length_singleton, List.length_nil]
    omega

private theorem length_replyFields (target : Sha1) (hosts : List Tornet.Host) :
    (replyFields target hosts).flatten.length = 24 + 27 * hosts.length := by
  rw [replyFields, List.flatten_append, List.length_append, length_hostFields]
  simp only [List.flatten_cons, List.flatten_nil, List.length_append, length_sha1Format, length_uint32Format,
    List.length_nil]

/-! ### What is read back -/

theorem findRequest_eq (throws : Bool) (target : Sha1) (n : UInt32) (limit : Option Sha1) :
    findRequest throws target n limit = some (requestFields target n.toBitVec limit).flatten :=
  Codec.putAll_fits (by rw [List.length_nil, Nat.zero_add, length_requestFields])

/-- Storing `n` as an `int` changes no byte of the request. -/
theorem resendRequest_eq (throws : Bool) (target : Sha1) (n : UInt32) (limit : Option Sha1) :
    resendRequest throws target (storedN n) limit = findRequest throws target n limit := by
  rw [resendRequest, storedN, BitVec.ofInt_toInt, findRequest]

private theorem readRequest_fields (target : Sha1) (n : UInt32) (limit : Option Sha1) :
    readRequest (requestFields target n.toBitVec limit).flatten = some (target, n, limit) := by
  cases limit with
  | none =>
    simp only [readRequest, requestFields, Option.isSome_none, Option.toList_none, List.map_nil, List.append_nil,
      List.flatten_cons, List.flatten_nil, Codec.unpack_pack, Option.bind_eq_bind, Option.bind_some]
    rfl
  | some limit =>
    have hlimit := sha1Format.unpack_pack limit []
    rw [List.append_nil] at hlimit
    simp only [readRequest, requestFields, Option.isSome_some, Option.toList_some, List.map_cons, List.map_nil,
      List.cons_append, List.nil_append, List.flatten_cons, List.flatten_nil, List.append_nil, Codec.unpack_pack,
      Option.bind_eq_bind, Option.bind_some]
    simp [Codec.byte, hlimit]

/-- The request of the state machine is the same bytes. -/
theorem lookupRequest_eq (target : Sha1) (n : UInt32) (limit : Option Sha1) :
    lookupRequest (target, n, limit) = (requestFields target n.toBitVec limit).flatten := by
  have hbytes (k v : Nat) : leBytes k v = Codec.leBytes k v := by
    induction k generalizing v with
    | zero => rfl
    | succ k ih =>
      rw [Codec.leBytes, ← ih, leBytes, List.range_succ_eq_map, List.map_cons, List.map_map, leBytes]
      congr 1
      · simp
      · apply List.map_congr_left
        intro i _
        simp only [Function.comp_apply, Nat.succ_eq_add_one, Nat.pow_succ, Nat.mul_comm _ 256, Nat.div_div_eq_div_mul]
  have hsha (h : Sha1) : sha1Bytes h = sha1Format.pack h := by
    rw [sha1Bytes, hbytes]
    rfl
  have hword : leBytes 4 n.toNat = uint32Format.pack n.toBitVec := hbytes 4 n.toNat
  cases limit with
  | none => simp [lookupRequest, requestFields, hsha, hword]
  | some limit => simp [lookupRequest, requestFields, hsha, hword]

private theorem requestRead (throws : Bool) (target : Sha1) (n : UInt32) (limit : Option Sha1) :
    RequestRead throws target n limit := by
  have hread : (findRequest throws target n limit).bind readRequest = some (target, n, limit) := by
    rw [findRequest_eq, Option.bind_some, readRequest_fields]
  exact ⟨hread, by rwa [resendRequest_eq]⟩

/-- The byte behind an endpoint tells whether the node is behind a NAT. -/
theorem readHosts_fields (remoteEp : Endpoint) (contacts : List Contact) :
    readHosts remoteEp contacts.length ((contacts.map Contact.host).flatMap hostFields).flatten =
      some (contacts.map (seenFrom remoteEp)) := by
  induction contacts with
  | nil => rfl
  | cons c rest ih =>
    have hnat : (if UInt8.ofNat c.host.natHosts.length = 0 then [] else [remoteEp]) =
        (seenFrom remoteEp c).natHosts := by
      rw [Contact.host, seenFrom]
      cases c.behindNat <;> rfl
    simp only [List.map_cons, List.flatMap_cons, List.flatten_append, hostFields, List.flatten_cons,
      List.flatten_nil, List.append_assoc, List.append_nil, List.length_cons, readHosts, Codec.unpack_pack,
      Option.bind_eq_bind, Option.bind_some]
    simp only [Codec.byte, List.singleton_append, Option.bind_some, hnat, ih]
    rfl

private theorem handleRoute_fields {remoteEp : Endpoint} {s : Lookups.State} {target : Sha1} {contacts : List Contact}
    (hs : s.routeLookups target ≠ none) (hlen : contacts.length ≤ 74) :
    handleRoute remoteEp s (replyFields target (contacts.map Contact.host)).flatten =
      some (s.handleRouteMsg target (contacts.map (seenFrom remoteEp))) := by
  have hnum : (BitVec.ofNat 32 (contacts.map Contact.host).length).toNat = contacts.length := by
    rw [List.length_map, BitVec.toNat_ofNat]
    omega
  simp only [handleRoute, replyFields, List.flatten_append, List.flatten_cons, List.flatten_nil, List.append_nil,
    List.append_assoc, Codec.unpack_pack, Option.bind_eq_bind, Option.bind_some, if_neg hs, hnum, readHosts_fields]

/-! ### How many hosts fit -/

/-- The connections the walk may take: those in the bucket of the target and the buckets below it that the
test of the limit lets through. -/
def eligible (r : Table) (target : Sha1) (limit : Option Sha1) : List Contact :=
  ((List.range (r.bucketId target + 1)).reverse.flatMap r.bucket).filter fun c => !ignored limit c

private theorem findNodesNear_eligible {r : Table} {target : Sha1} {n : UInt32} (limit : Option Sha1)
    (h : n = 0 ∨ target ≠ r.kbuckets.nodeId) :
    r.findNodesNear target n limit = some (((eligible r target limit).take n.toNat).map Contact.host) := by
  have hrange : ¬(0 < n.toNat ∧ 161 ≤ r.bucketId target) := by
    rintro ⟨hpos, hb⟩
    rcases h with rfl | h
    · exact absurd hpos (by decide)
    · have := Node.Kbucket.calcBucket_lt fun h0 => h (BitVec.xor_eq_zero_iff.mp h0)
      rw [Table.bucketId] at hb
      omega
  rw [Table.findNodesNear, if_neg hrange, walk_eq, List.nil_append, List.length_nil, Nat.sub_zero]
  rfl

/-- A lookup of the own id leaves the buckets. -/
theorem findNodesNear_own {r : Table} {n : UInt32} (limit : Option Sha1) (hn : n ≠ 0) :
    r.findNodesNear r.kbuckets.nodeId n limit = none := by
  have hb : r.bucketId r.kbuckets.nodeId = 161 := by
    rw [Table.bucketId, BitVec.xor_self]
    rfl
  have hpos : 0 < n.toNat := Nat.pos_of_ne_zero fun h0 => hn (UInt32.toNat_inj.mp h0)
  rw [Table.findNodesNear, if_pos ⟨hpos, by omega⟩]

/-- The 2048 bytes of the reply hold 74 hosts. -/
theorem reply_few (throws : Bool) (target : Sha1) {hosts : List Tornet.Host} (h : hosts.length ≤ 74) :
    (Codec.putAll throws 2048 [] (replyFields target hosts)).bind sendable =
      some (replyFields target hosts).flatten := by
  have hlen := length_replyFields target hosts
  rw [Codec.putAll_fits (by rw [List.length_nil]; omega), Option.bind_some, List.nil_append, sendable,
    if_pos (by omega)]

/-- With one more, the stream is full behind the address of the 75th: it throws, or goes on and leaves
a message that `send` does not take. -/
theorem reply_many (throws : Bool) (target : Sha1) {hosts : List Tornet.Host} (h : 75 ≤ hosts.length) :
    (Codec.putAll throws 2048 [] (replyFields target hosts)).bind sendable = none := by
  obtain ⟨x, rest, hdrop⟩ := List.exists_cons_of_length_pos (l := hosts.drop 74) (by rw [List.length_drop]; omega)
  let start : List Bytes := [sha1Format.pack target, uint32Format.pack (BitVec.ofNat 32 hosts.length)] ++
    (hosts.take 74).flatMap hostFields ++ [sha1Format.pack x.id, uint32Format.pack x.ep.ip]
  let more : List Bytes := [uint16Format.pack x.ep.port, [UInt8.ofNat x.natHosts.length]] ++ rest.flatMap hostFields
  have hsplit : replyFields target hosts = start ++ more := by
    have hhosts : hosts.flatMap hostFields =
        (hosts.take 74).flatMap hostFields ++ (hostFields x ++ rest.flatMap hostFields) := by
      rw [← List.flatMap_cons, ← hdrop, ← List.flatMap_append, List.take_append_drop]
    rw [replyFields, hhosts]
    simp [start, more, hostFields]
  have hstart : start.flatten.length = 2046 := by
    simp only [start, List.flatten_append, List.length_append, length_hostFields, List.length_take, List.flatten_cons,
      List.flatten_nil, length_sha1Format, length_uint32Format, List.length_nil]
    omega
  rw [hsplit, Codec.putAll_append, Codec.putAll_fits (by rw [List.length_nil]; omega), Option.bind_some]
  cases hres : Codec.putAll throws 2048 ([] ++ start.flatten) more with
  | none => rfl
  | some res =>
    have hgrows := Codec.putAll_grows hres
    rw [List.nil_append] at hgrows
    rw [Option.bind_some, sendable, if_neg (by omega)]

theorem handleLookup_request (throws : Bool) (r : Table) (target : Sha1) (n : UInt32) (limit : Option Sha1) :
    (findRequest throws target n limit).bind (handleLookup throws r) =
      (r.findNodesNear target n limit).bind fun hosts =>
        (Codec.putAll throws 2048 [] (replyFields target hosts)).bind sendable := by
  rw [findRequest_eq, Option.bind_some, handleLookup, readRequest_fields]
  rfl

/-- Requests are always read back. They are answered as they should be if and only if no node or not the own id
is looked up, and at most 74 nodes are asked for or can be returned. -/
theorem lookup_answered_iff (throws : Bool) (r : Table) (remoteEp : Endpoint) (target : Sha1) (n : UInt32)
    (limit : Option Sha1) :
    RequestRead throws target n limit ∧ Answered throws r remoteEp target n limit ↔
      (n = 0 ∨ target ≠ r.kbuckets.nodeId) ∧ (n.toNat ≤ 74 ∨ (eligible r target limit).length ≤ 74) := by
  have hrequest := requestRead throws target n limit
  constructor
  · rintro ⟨-, contacts, reply, hfound, hreply, -⟩
    rw [handleLookup_request, hfound, Option.bind_some] at hreply
    have hown : n = 0 ∨ target ≠ r.kbuckets.nodeId := by
      by_contra hc
      rw [not_or, not_not] at hc
      obtain ⟨hn, rfl⟩ := hc
      rw [findNodesNear_own limit hn] at hfound
      cases hfound
    refine ⟨hown, ?_⟩
    by_contra hc
    rw [findNodesNear_eligible limit hown] at hfound
    have hlen := congrArg List.length (Option.some.inj hfound)
    rw [List.length_map, List.length_take] at hlen
    rw [reply_many throws target (by omega)] at hreply
    cases hreply
  · rintro ⟨hown, hfew⟩
    have hfound := findNodesNear_eligible limit hown
    generalize hcontacts : (eligible r target limit).take n.toNat = contacts at hfound
    have hlen : contacts.length ≤ 74 := by
      rw [← hcontacts, List.length_take]
      omega
    have hreply : (findRequest throws target n limit).bind (handleLookup throws r) =
        some (replyFields target (contacts.map Contact.host)).flatten := by
      rw [handleLookup_request, hfound, Option.bind_some, reply_few throws target (by rwa [List.length_map])]
    have hsize : (replyFields target (contacts.map Contact.host)).flatten.length ≤ 2044 := by
      rw [length_replyFields, List.length_map]
      omega
    exact ⟨hrequest, contacts, _, hfound, hreply, hsize, fun s hs => handleRoute_fields hs hlen⟩

def fullBuckets : Node.Kbucket := { nodeId := 0, count := 75, buckets := fun b => if b.val = 1 then List.range 75 else [] }

def fullContact (c : Node.ConnId) : Contact :=
  { remoteId := BitVec.ofNat 160 (2 ^ 159 + c), endpoint := {}, behindNat := false }

private theorem full_placed :
    ∀ b, ∀ c ∈ fullBuckets.buckets b, fullBuckets.bucketFor (fullContact c).remoteId = some b := by decide +kernel

private theorem full_distinct :
    ((List.finRange 161).flatMap fun b => (fullBuckets.buckets b).map fun c => (fullContact c).remoteId).Nodup := by
  decide +kernel

def fullTable : Table := ⟨fullBuckets, fullContact, full_placed, full_distinct⟩

/-- Of 75 nodes asked for and found, no message arrives. -/
theorem full_unanswered :
    ¬ ∀ (throws : Bool) (r : Table) (remoteEp : Endpoint) (target : Sha1) (n : UInt32) (limit : Option Sha1),
      RequestRead throws target n limit ∧ Answered throws r remoteEp target n limit := by
  intro h
  obtain ⟨-, contacts, reply, hfound, hreply, -⟩ := h true fullTable {} (BitVec.ofNat 160 (2 ^ 159)) 75 none
  have hlen : (fullTable.findNodesNear (BitVec.ofNat 160 (2 ^ 159)) 75 none).map List.length = some 75 := by
    decide +kernel
  rw [hfound, Option.map_some, Option.some.injEq] at hlen
  rw [handleLookup_request, hfound, Option.bind_some, reply_many true _ (by omega)] at hreply
  cases hreply

end Tornet.Connection.Routes
