import Tornet.Connection.Accounts
import Tornet.Connection.Reflection

/-! The accounts of all peers over the runs of a node: when the stored counters only grow. -/
namespace Tornet.Connection
open Library Runs Eff

section
variable {K : Crypto} {x : Call}

/-! ### One datagram -/

private theorem dispatch_handled (t : MessageType) (payload : Bytes) (first : UInt8) :
    Post (fun c => Intact K x c ∧ (t = .auth →
        ∀ m, K.readAuth payload = some m → Verifies K x.dh m → Admits K x c (K.sha1 m.pubk)))
      (dispatch K t payload first)
      (fun ok c => Handled K x ok c ∧
        (ok = false → t = .auth → ∀ m, K.readAuth payload = some m → ¬ Verifies K x.dh m))
      fun _ => Balanced K x := by
  have plain {m : Handler Bool} (hne : t ≠ .auth) (h : Post (Intact K x) m (Handled K x) fun _ => Balanced K x) :
      Post (fun c => Intact K x c ∧ (t = .auth →
          ∀ m, K.readAuth payload = some m → Verifies K x.dh m → Admits K x c (K.sha1 m.pubk))) m
        (fun ok c => Handled K x ok c ∧
          (ok = false → t = .auth → ∀ m, K.readAuth payload = some m → ¬ Verifies K x.dh m))
        fun _ => Balanced K x :=
    h.conseq (fun _ hc => hc.1) (fun _ _ hc => ⟨hc, fun _ ht => absurd ht hne⟩) fun _ _ => id
  have C := Intact.closed K x
  cases t with
  | data => exact plain (by simp) (handled_of_preserves C.handleDataMsg)
  | auth =>
    exact (handleAuthMsg_handled payload).conseq (fun _ hc => ⟨hc.1, hc.2 rfl⟩)
      (fun _ _ hc => ⟨hc.1, fun ho _ => hc.2 ho⟩) fun _ _ => id
  | authResp => exact plain (by simp) (handled_of_preserves (C.handleAuthRespMsg first))
  | routeLookup => exact plain (by simp) (handleLookupMsg_handled payload)
  | route => exact plain (by simp) (handled_of_preserves (C.handleRouteMsg payload))
  | close => exact plain (by simp) (handled_of_preserves (.bind C.reset fun _ => .pure fun _ => id))
  | updateRank => exact plain (by simp) (handled_of_preserves (C.handleUpdateRankMsg payload))
  | reqReverseConnect => exact plain (by simp) (chargedRequest_handled (by decide))
  | reqConnect => exact plain (by simp) (chargedRequest_handled (by decide))

/-- The datagram is an auth message with a good signature under the cipher of the connection. -/
def Accepts (K : Crypto) (c : Conn) (d : Bytes) (m : AuthMessage) : Prop :=
  ∃ key payload, c.bf = some key ∧ checksumOk K (K.decrypt key d) = true ∧ typeOf (K.decrypt key d) = some .auth ∧
    payloadOf (K.decrypt key d) (((K.decrypt key d).getD 3 0).toNat % 8) = some payload ∧
    K.readAuth payload = some m ∧ Verifies K c.dh m

/-- Decoding one stage. What cannot be decoded is the next stage, and was no auth message that is accepted. -/
theorem decodePacket_handled {c : Conn} (hc : Intact K x c) (d : Bytes)
    (hadm : ∀ m, Accepts K c d m → Admits K x c (K.sha1 m.pubk)) :
    Post (fun t => t = c) (decodePacket K d)
      (fun r t => Balanced K x t ∧ (r.1 = false → Intact K x t ∧ (∃ key, x.keys key ∧ r.2 = K.decrypt key d) ∧
        ∀ m, ¬ Accepts K c d m)) fun _ => Balanced K x := by
  refine .bind (R := fun _ t => t = { c with record := { c.record with lastContact := c.env.now } })
    (.modify fun t ht => ht ▸ rfl) fun _ => .get_bind fun t ht => ?_
  subst ht
  have hr : Intact K x { c with record := { c.record with lastContact := c.env.now } } := hc.steps (.of_books rfl)
  split
  · exact .throw fun t ht => ht ▸ hr.toBalanced
  rename_i key hkey
  have hbf : c.bf = some key := hkey
  have hS : x.keys key := hc.keyed.bf key hbf
  refine .ite (fun hsum => ?_) fun hsum => ?_
  · refine .bind (R := fun ok t => Handled K x ok t ∧ (ok = false → ∀ m, ¬ Accepts K c d m)) ?_ fun ok =>
      .pure fun t ht => ⟨ht.1.1, fun hok => ⟨ht.1.2 hok, ⟨key, hS, rfl⟩, ht.2 hok⟩⟩
    refine handleFrame_post (fun t ht => ⟨⟨ht ▸ hr.toBalanced, by simp⟩, by simp⟩) (fun t ht => ht ▸ hr.toBalanced)
      fun ty payload htype hpay => ?_
    have hpre : Intact K x { c with record := { c.record with lastContact := c.env.now } } ∧
        (ty = .auth → ∀ m, K.readAuth payload = some m → Verifies K x.dh m →
          Admits K x { c with record := { c.record with lastContact := c.env.now } } (K.sha1 m.pubk)) :=
      ⟨hr, fun ht m hm hv => hadm m ⟨key, payload, hbf, hsum, ht ▸ htype, hpay, hm, hc.dh.symm ▸ hv⟩⟩
    refine ((dispatch_handled ty payload _).named hpre).conseq (fun _ => id) (fun ok t ht => ⟨ht.1, fun hok => ?_⟩)
      fun _ _ => id
    rintro m ⟨key', payload', hbf', -, htype', hpay', hm, hv⟩
    cases hbf.symm.trans hbf'
    cases hpay.symm.trans hpay'
    exact ht.2 hok (Option.some.inj (htype.symm.trans htype')) m hm (hc.dh ▸ hv)
  · refine .pure fun t ht => ht ▸ ⟨hr.toBalanced, fun _ => ⟨hr, ⟨key, hS, rfl⟩, ?_⟩⟩
    rintro m ⟨key', payload', hbf', hsum', -⟩
    cases hbf.symm.trans hbf'
    exact hsum hsum'

/-- What a later stage of a datagram may authenticate: a peer that is new to the database and to all connections. -/
def LateFresh (K : Crypto) (x : Call) (b : Bytes) : Prop :=
  ∀ payload m, OpensAuth K x.keys b payload → K.readAuth payload = some m → Verifies K x.dh m →
    K.sha1 m.pubk ≠ zeroId K ∧ ¬ x.taken (K.sha1 m.pubk) ∧ x.fresh (K.sha1 m.pubk)

/-- The stored records of other connections are not for the endpoint. -/
def Away (x : Call) : Prop := ∀ id, x.taken id → ∀ r, x.db.lookup id = some r → r.lastEp ≠ x.ep

variable {b : Bytes}

theorem LateFresh.admits (hlate : LateFresh K x b) {d : Bytes} (hd : Stage K x.keys b d) (hlen : d.length % 8 = 0) {c : Conn}
    (hc : Intact K x c) (m : AuthMessage) (ha : Accepts K c d m) : Admits K x c (K.sha1 m.pubk) := by
  obtain ⟨key, payload, hbf, hsum, htype, hpay, hm, hv⟩ := ha
  obtain ⟨hzero, hfree, hfresh⟩ :=
    hlate payload m ⟨d, key, hd, hlen, hc.keyed.bf key hbf, hsum, htype, hpay⟩ hm (hc.dh ▸ hv)
  exact ⟨hzero, hfree, .inl hfresh⟩

/-- Decoding a later stage. -/
theorem tryDecode_late (hlate : LateFresh K x b) {d : Bytes} (hd : Stage K x.keys b d) :
    Post (Intact K x) (tryDecode K d)
      (fun r t => Balanced K x t ∧ (r.1 = false → Intact K x t ∧ Stage K x.keys b r.2)) fun _ => Balanced K x := by
  refine .ite (fun hlen => ?_) fun _ => .pure fun t ht => ⟨ht.toBalanced, fun _ => ⟨ht, hd⟩⟩
  intro c hc
  refine (decodePacket_handled hc d (hlate.admits hd hlen hc)).conseq (fun _ => id) (fun r t ht => ?_) (fun _ _ => id) c rfl
  refine ⟨ht.1, fun hno => ?_⟩
  obtain ⟨hr, ⟨key, hkey, heq⟩, -⟩ := ht.2 hno
  exact ⟨hr, heq ▸ hd.decrypted hlen hkey⟩

/-! ### The key exchange -/

theorem processDh_balanced (b : Bytes) : Preserves (Balanced K x) (processDh K b) := by
  refine .get_keep fun c hc => ?_
  split
  · exact .throw fun _ => id
  · exact .modify fun t ht => ht.moves ⟨rfl, rfl, rfl, rfl, rfl, .inl rfl⟩

theorem generateDh_balanced : Preserves (Balanced K x) (generateDh K) :=
  .modify fun _ ht => ht.moves ⟨rfl, rfl, rfl, rfl, rfl, .inl rfl⟩

theorem exchange_balanced (b : Bytes) (m : Handler Unit) (hm : Preserves (Balanced K x) m) :
    Preserves (Balanced K x) (do processDh K b; sendAuth K; m) :=
  .bind (processDh_balanced b) fun _ => .bind (Balanced.closed K x).sendAuth fun _ => hm

theorem startDh_balanced (b : Bytes) : Preserves (Balanced K x) (startDh K b) := by
  have C := Balanced.closed K x
  refine .bind generateDh_balanced fun _ => .bind C.sendDh fun _ => .ite (fun _ => ?_) fun _ => C.gotoState _
  exact exchange_balanced b _ (C.gotoState _)

theorem handleGeneratedDh_balanced (b : Bytes) : Preserves (Balanced K x) (handleGeneratedDh K b) :=
  .ite (fun _ => exchange_balanced b _ ((Balanced.closed K x).gotoState _)) fun _ => (Balanced.closed K x).sendDh

theorem advance_balanced : Preserves (Balanced K x) (advance K) := by
  have C := Balanced.closed K x
  refine .bind (C.modify fun _ => .of_books rfl) fun _ => .get_keep fun c hc => .ite (fun _ => C.gotoState _) fun _ => ?_
  split
  · exact .pure fun _ => id
  · exact .bind generateDh_balanced fun _ => .bind C.sendDh fun _ => C.gotoState _
  · exact C.sendDh
  · exact .bind C.sendDh fun _ => C.sendAuth
  · exact C.sendAuthResponse _
  · exact C.modify fun _ => .of_books rfl

/-! ### Whole calls -/

/-- The stored record of the endpoint is resumed. -/
theorem resume_balanced (haway : Away x) {nid : Sha1} {r : PeerRecord} {m : Handler Unit}
    (hm : Post (Intact K x) m (fun _ => Balanced K x) fun _ => Balanced K x) :
    Post (fun c => Intact K x c ∧ c.peers.fetchByEndpoint c.remoteEp = some (nid, r)) (do
      Eff.modify fun c => { c with remoteId := nid, record := r, bf := some r.bfKey, resumed := true }
      updateDistIndex
      Eff.modify fun c => { c with record := { c.record with connected := true } }
      storeRecord K nid
      gotoState .connected
      m) (fun _ => Balanced K x) fun _ => Balanced K x := by
  have C := Intact.closed K x
  have C' := C.named nid
  have settle {m : Handler Unit} {Q : Unit → Conn → Prop} {P : Conn → Prop}
      (h : Post P m Q fun _ c => Intact K x c ∧ c.remoteId = nid) : Post P m Q fun _ => Balanced K x :=
    h.conseq (fun _ => id) (fun _ _ => id) fun _ _ hc => hc.1.toBalanced
  refine .bind (R := fun _ c => Intact K x c ∧ c.remoteId = nid) (.modify fun c hc => ?_) fun _ => ?_
  · exact ⟨hc.1.resume haway hc.2, rfl⟩
  refine .bind (settle C'.external) fun _ => .bind (settle (C'.modify fun _ => .of_books rfl)) fun _ => ?_
  refine .bind (settle (C.storeRecord nid)) fun _ => .bind (settle (C'.gotoState _)) fun _ => ?_
  exact hm.conseq (fun _ hc => hc.1) (fun _ _ => id) fun _ _ => id

/-- `handle_uninit` and `handle_connected` call each other with one stage after the other. -/
theorem handleUninit_connected_balanced (haway : Away x) (hlate : LateFresh K x b) (fuel : Nat) {d : Bytes}
    (hd : Stage K x.keys b d) :
    Post (Intact K x) (handleUninit K fuel d) (fun _ => Balanced K x) (fun _ => Balanced K x) ∧
    Post (Intact K x) (handleConnected K fuel d) (fun _ => Balanced K x) fun _ => Balanced K x := by
  induction fuel generalizing d with
  | zero => exact ⟨.throw fun _ h => h.toBalanced, .throw fun _ h => h.toBalanced⟩
  | succ fuel ih =>
    constructor
    · rw [handleUninit]
      refine .get_bind fun c hc => ?_
      split
      · rename_i nid r hfetch
        exact (resume_balanced haway (ih hd).2).named ⟨hc, hfetch⟩
      · exact (startDh_balanced d).named hc.toBalanced
    · rw [handleConnected]
      refine .bind (tryDecode_late hlate hd) fun r => .ite (fun _ => .pure fun _ h => h.1) fun hr => ?_
      have hno : r.1 = false := Bool.eq_false_iff.mpr hr
      intro c hc
      obtain ⟨hintact, hstage⟩ := hc.2 hno
      refine Post.bind (R := fun _ => Intact K x) ?_ (fun _ => (ih hstage).1) c hintact
      exact forgetPeer_intact.conseq (fun _ => id) (fun _ _ => id) fun _ _ h => h.toBalanced

/-- The datagram is decoded as it comes, and accepted as an auth message. -/
def Direct (K : Crypto) (c : Conn) (b : Bytes) (m : AuthMessage) : Prop :=
  State.receivedDh.value ≤ c.curState.value ∧ b.length % 8 = 0 ∧ Accepts K c b m

/-- A peer that authenticates is new to the database and to all connections, or the connection stands for it and gets its
auth message as it comes. -/
def AuthGuard (K : Crypto) (x : Call) (c : Conn) (b : Bytes) : Prop :=
  ∀ payload m, OpensAuth K x.keys b payload → K.readAuth payload = some m → Verifies K x.dh m →
    K.sha1 m.pubk ≠ zeroId K ∧ ¬ x.taken (K.sha1 m.pubk) ∧
      (x.fresh (K.sha1 m.pubk) ∨ Direct K c b m ∧ c.Holds K ∧ c.remoteId = K.sha1 m.pubk)

section
variable {c : Conn}

theorem AuthGuard.late (hg : AuthGuard K x c b) (hno : ∀ m, ¬ Direct K c b m) : LateFresh K x b := by
  intro payload m hop hm hv
  obtain ⟨hzero, hfree, hfresh | ⟨hdirect, -⟩⟩ := hg payload m hop hm hv
  · exact ⟨hzero, hfree, hfresh⟩
  · exact absurd hdirect (hno m)

theorem AuthGuard.admits (hg : AuthGuard K x c b) (hc : Intact K x c) (hlen : b.length % 8 = 0) (m : AuthMessage)
    (ha : Accepts K c b m) : Admits K x c (K.sha1 m.pubk) := by
  obtain ⟨key, payload, hbf, hsum, htype, hpay, hm, hv⟩ := ha
  obtain ⟨hzero, hfree, hknown⟩ :=
    hg payload m ⟨b, key, .received, hlen, hc.keyed.bf key hbf, hsum, htype, hpay⟩ hm (hc.dh ▸ hv)
  exact ⟨hzero, hfree, hknown.imp_right And.right⟩

/-- A datagram that is decoded as it comes, or given up for a new start. -/
theorem decodeOrRestart_balanced (hc : Intact K x c) (hg : AuthGuard K x c b) (hlen : b.length % 8 = 0)
    (restart : Bytes → Handler Unit) (hre : LateFresh K x b → ∀ d, Stage K x.keys b d →
      Post (Intact K x) (restart d) (fun _ => Balanced K x) fun _ => Balanced K x) :
    Post (fun t => t = c) (do
      let r ← decodePacket K b
      if r.1 then pure () else restart r.2) (fun _ => Balanced K x) fun _ => Balanced K x := by
  refine .bind (decodePacket_handled hc b (hg.admits hc hlen)) fun r => .ite (fun _ => .pure fun _ h => h.1) fun hr => ?_
  intro t ht
  obtain ⟨hintact, ⟨key, hkey, heq⟩, hno⟩ := ht.2 (Bool.eq_false_iff.mpr hr)
  have hlate : LateFresh K x b := hg.late fun m hm => hno m hm.2.2
  exact hre hlate r.2 (heq ▸ Stage.received.decrypted hlen hkey) t hintact

theorem handlePacket_balanced (haway : Away x) (hc : Intact K x c) (hg : AuthGuard K x c b) (fuel : Nat) :
    Post (fun t => t = c) (handlePacket K fuel b) (fun _ => Balanced K x) fun _ => Balanced K x := by
  have C := Intact.closed K x
  have hrestart {m : Handler Unit} {n : Nat} (hm : Preserves (Intact K x) m) (hlate : LateFresh K x b) (d : Bytes)
      (hd : Stage K x.keys b d) :
      Post (Intact K x) (do m; handleUninit K n d) (fun _ => Balanced K x) fun _ => Balanced K x :=
    .bind (hm.conseq (fun _ => id) (fun _ _ => id) fun _ _ h => h.toBalanced)
      fun _ => (handleUninit_connected_balanced haway hlate n hd).1
  refine .get_bind fun t ht => ?_
  subst ht
  split
  · exact .pure fun _ h => h ▸ hc.toBalanced
  · rename_i hst
    have hlate : LateFresh K x b := hg.late fun m hm => absurd hm.1 (by rw [hst]; decide)
    exact (handleUninit_connected_balanced haway hlate fuel .received).1.named hc
  · exact (handleGeneratedDh_balanced b).named hc.toBalanced
  · refine .ite (fun _ => ?_) fun _ => .ite (fun hlen => ?_) fun _ => .pure fun _ h => h ▸ hc.toBalanced
    · refine Post.named (P := Balanced K x) ?_ hc.toBalanced
      refine .bind (Balanced.closed K x).sendDh fun _ => .bind (processDh_balanced b) fun _ => ?_
      exact (Balanced.closed K x).sendAuth
    · exact decodeOrRestart_balanced hc hg hlen (fun d => do gotoState .uninit; handleUninit K fuel d)
        (hrestart (C.gotoState _))
  · refine .ite (fun hlen => ?_) fun hlen => .ite (fun _ => ?_) fun _ => .pure fun _ h => h ▸ hc.toBalanced
    · exact decodeOrRestart_balanced hc hg hlen (fun d => do reset K; handleUninit K fuel d) (hrestart C.reset)
    · exact (hrestart C.reset (hg.late fun m hm => hlen hm.2.1) b .received).named hc
  · cases fuel with
    | zero => exact .throw fun _ h => h ▸ hc.toBalanced
    | succ fuel =>
      rw [handleConnected, tryDecode]
      by_cases hlen : b.length % 8 = 0
      · rw [if_pos hlen]
        exact decodeOrRestart_balanced hc hg hlen (fun d => do forgetPeer K; handleUninit K fuel d) (hrestart forgetPeer_intact)
      · rw [if_neg hlen]
        exact (hrestart forgetPeer_intact (hg.late fun m hm => hlen hm.2.1) b .received).named hc

end

theorem construct_balanced (haway : Away x) {c : Conn} (hc : Balanced K x c) :
    Post (fun t => t = c) (construct K) (fun _ => Balanced K x) fun _ => Balanced K x := by
  have C := Balanced.closed K x
  refine .get_bind fun t ht => ?_
  subst ht
  split
  · rename_i nid r hfetch
    have C' := C.named nid
    refine .bind (R := fun _ t => Balanced K x t ∧ t.remoteId = nid) (.modify fun t ht => ?_) fun _ => ?_
    · subst ht
      exact ⟨hc.resume haway hfetch, rfl⟩
    refine Post.conseq (E := fun _ t => Balanced K x t ∧ t.remoteId = nid) (Q := fun _ t => Balanced K x t ∧ t.remoteId = nid)
      ?_ (fun _ => id) (fun _ _ h => h.1) fun _ _ h => h.1
    refine .bind C'.external fun _ => .bind (C'.gotoState _) fun _ => ?_
    exact .bind (C'.modify fun _ => .of_books rfl) fun _ => C.storeRecord nid
  · exact .pure fun _ h => h ▸ hc

theorem destruct_balanced : Preserves (Balanced K x) (destruct K) := by
  refine .get_bind fun c hc => .named (P := fun t => Balanced K x t ∧ t.remoteId = c.remoteId) ?_ ⟨hc, rfl⟩
  refine (Balanced.closed K x).storeChanged ?_ _ _
  exact fun _ => .of_books rfl

end

/-! ### The calls of the node itself -/

def endpointBytes (ep : Endpoint) : Bytes := leBytes 4 ep.ip.toNat ++ leBytes 2 ep.port.toNat

/-- The calls that raise what is owed to the peer: the two requests for a connection, and `find_nodes_near` up to the wait,
after it, and when it fails. -/
inductive LocalCall where
  | requestReverseConnect (ep : Endpoint)
  | sendRequestConnect (ep : Endpoint)
  | findNodesNear (rank : UInt8) (nonce : UInt64 × UInt64) (lookup : Sha1 × UInt32 × Option Sha1)
  | foundNodesNear
  | failedNodesNear (target : Sha1)
  deriving DecidableEq, Repr

/-- `_record.recv_credit += fee`. -/
def owe (fee : UInt64) : Handler Unit :=
  Eff.modify fun c => { c with record := { c.record with recvCredit := c.record.recvCredit + fee } }

def LocalCall.handler : LocalCall → Handler Unit
  | .requestReverseConnect ep => do
    send .reqReverseConnect (endpointBytes ep)
    owe REQUEST_REVERSE_CONNECT_FEE
  | .sendRequestConnect ep => do
    send .reqConnect (endpointBytes ep)
    owe REVERSE_CONNECT_FEE
  | .findNodesNear rank nonce lookup => do
    let c ← Eff.get
    Eff.when (c.record.publishedRank < rank) (send .updateRank (leBytes 8 nonce.1.toNat ++ leBytes 8 nonce.2.toNat))
    Eff.modify fun c => { c with routeLookups := (c.routeLookups.filter fun l => l.1 ≠ lookup.1) ++ [lookup] }
    send .routeLookup (lookupRequest lookup)
  | .foundNodesNear => owe REQUEST_NODES_NEAR_FEE
  | .failedNodesNear target =>
    Eff.modify fun c => { c with routeLookups := c.routeLookups.filter fun l => l.1 ≠ target }

section
variable {K : Crypto} {x : Call}

/-- With room for a fee. -/
theorem roomy_closed (K : Crypto) (x : Call) : Closed K fun c => Balanced K x c ∧ Room c.record.account where
  steps h hs := ⟨h.1.moves hs.toMoves, hs.account ▸ h.2⟩
  store h hh := ⟨h.1.store hh, h.2⟩

theorem localCall_balanced (l : LocalCall) :
    Post (fun c => Balanced K x c ∧ Room c.record.account) l.handler (fun _ => Balanced K x) fun _ => Balanced K x := by
  have C := roomy_closed K x
  have settle {m : Handler Unit} (h : Preserves (fun c => Balanced K x c ∧ Room c.record.account) m) :
      Post (fun c => Balanced K x c ∧ Room c.record.account) m (fun _ c => Balanced K x c ∧ Room c.record.account)
        fun _ => Balanced K x :=
    h.conseq (fun _ => id) (fun _ _ => id) fun _ _ hc => hc.1
  have hbalanced {m : Handler Unit} (h : Preserves (fun c => Balanced K x c ∧ Room c.record.account) m) :
      Post (fun c => Balanced K x c ∧ Room c.record.account) m (fun _ => Balanced K x) fun _ => Balanced K x :=
    h.conseq (fun _ => id) (fun _ _ hc => hc.1) fun _ _ hc => hc.1
  cases l with
  | requestReverseConnect ep =>
    exact .bind (settle (C.send _ _)) fun _ => .modify fun c hc => hc.1.recvCredit hc.2 (by decide)
  | sendRequestConnect ep =>
    exact .bind (settle (C.send _ _)) fun _ => .modify fun c hc => hc.1.recvCredit hc.2 (by decide)
  | findNodesNear rank nonce lookup =>
    refine .get_keep fun _ _ => .bind (settle (.when (fun _ => C.send _ _) fun _ _ => id)) fun _ => ?_
    exact .bind (settle (C.modify fun _ => .of_books rfl)) fun _ => hbalanced (C.send _ _)
  | foundNodesNear => exact .modify fun c hc => hc.1.recvCredit hc.2 (by decide)
  | failedNodesNear target => exact hbalanced (C.modify fun _ => .of_books rfl)

end

/-! ### The whole node -/

/-- What happens to the connections of a node, with the calls it makes on its own account. -/
inductive LedgerEvent where
  | host (e : HostEvent)
  | call (ep : Endpoint) (l : LocalCall) (env : Env)
  deriving DecidableEq, Repr

namespace Host

/-- A call on the connection of an endpoint; an exception ends the call only. -/
def call (h : Host) (ep : Endpoint) (m : Handler Unit) (env : Env) : Option Host :=
  match h.conn ep with
  | none => some h
  | some c => match m { c with env := env } with
    | (.ok _, c') => some (h.put ep c')
    | (.error .exception, c') => some (h.put ep c')
    | (.error _, _) => none

def ledgerStep (K : Crypto) (fuel : Nat) (h : Host) : LedgerEvent → Option Host
  | .host e => h.step K fuel e
  | .call ep l env => h.call ep l.handler env

end Host

def LedgerEvent.endpoint : LedgerEvent → Endpoint
  | .host (.create ep _) | .host (.event ep _) | .host (.destroy ep _) | .call ep _ _ => ep

def LedgerEvent.env : LedgerEvent → Env
  | .host (.create _ env) | .host (.destroy _ env) | .call _ _ env => env
  | .host (.event _ e) => e.env

def LedgerEvent.handler (K : Crypto) (fuel : Nat) : LedgerEvent → Handler Unit
  | .host (.create _ _) => construct K
  | .host (.event _ e) => e.handler K fuel
  | .host (.destroy _ _) => destruct K
  | .call _ l _ => l.handler

namespace Host

/-- The connection an event is for: a new one, or that of its endpoint. -/
def subject (h : Host) : LedgerEvent → Option Conn
  | .host (.create ep _) => if (h.conn ep).isSome then none else some (Conn.init ep h.db)
  | .host (.event ep _) | .host (.destroy ep _) | .call ep _ _ => h.conn ep

theorem subject_create {h : Host} {ep : Endpoint} {env : Env} {c : Conn} (hc : h.subject (.host (.create ep env)) = some c) :
    c = Conn.init ep h.db := by
  simp only [subject] at hc
  split_ifs at hc
  exact (Option.some.inj hc).symm

/-- All that an event can do: nothing, or its handler runs on the connection it is for, which then stays or goes. -/
theorem ledgerStep_cases {K : Crypto} {fuel : Nat} {h h' : Host} {e : LedgerEvent} (hs : h.ledgerStep K fuel e = some h') :
    h' = h ∨ ∃ c o, h.subject e = some c ∧ (o = some ((e.handler K fuel).final { c with env := e.env }) ∨ o = none) ∧
      h' = ⟨((e.handler K fuel).final { c with env := e.env }).peers, Function.update h.conns e.endpoint o⟩ := by
  cases e with
  | host e =>
    cases e with
    | create ep env =>
      simp only [ledgerStep, step, created] at hs
      split at hs
      · exact .inl (Option.some.inj hs).symm
      rename_i hnone
      have hsub : h.subject (.host (.create ep env)) = some (Conn.init ep h.db) := by
        rw [subject, hnone]
        rfl
      have hconns : Function.update h.conns ep none = h.conns :=
        Function.update_eq_self_iff.mpr (Option.map_eq_none_iff.mp hnone).symm
      split at hs <;> rename_i heq <;> cases hs
      · refine .inr ⟨_, _, hsub, .inl rfl, ?_⟩
        simp only [LedgerEvent.handler, LedgerEvent.env, Eff.final, heq]
        rfl
      · refine .inr ⟨_, none, hsub, .inr rfl, ?_⟩
        simp only [LedgerEvent.handler, LedgerEvent.env, LedgerEvent.endpoint, Eff.final, heq, hconns]
    | event ep e =>
      simp only [ledgerStep, step] at hs
      split at hs
      · exact .inl (Option.some.inj hs).symm
      rename_i c hc
      obtain ⟨c', hc', rfl⟩ := Option.map_eq_some_iff.mp hs
      obtain rfl := step_final hc'
      exact .inr ⟨c, _, hc, .inl rfl, rfl⟩
    | destroy ep env =>
      simp only [ledgerStep, step] at hs
      split at hs
      · exact .inl (Option.some.inj hs).symm
      rename_i c hc
      split at hs <;> rename_i heq <;> cases hs
      refine .inr ⟨c, none, hc, .inr rfl, ?_⟩
      simp only [LedgerEvent.handler, LedgerEvent.env, LedgerEvent.endpoint, Eff.final, heq]
  | call ep l env =>
    simp only [ledgerStep, call] at hs
    split at hs
    · exact .inl (Option.some.inj hs).symm
    rename_i c hc
    split at hs <;> rename_i heq <;> cases hs <;>
    · refine .inr ⟨c, _, hc, .inl rfl, ?_⟩
      simp only [LedgerEvent.handler, LedgerEvent.env, Eff.final, heq]
      rfl

def Taken (K : Crypto) (h : Host) (ep : Endpoint) (id : Sha1) : Prop :=
  ∃ ep' c, ep' ≠ ep ∧ h.conn ep' = some c ∧ c.Holds K ∧ c.remoteId = id

/-- A call on the connection `c` of an endpoint. -/
def callOn (K : Crypto) (h : Host) (ep : Endpoint) (c : Conn) : Call where
  db := h.db
  ep := ep
  dh := c.dh
  taken := h.Taken K ep
  fresh id := h.db.lookup id = none ∧ ¬ (c.Holds K ∧ c.remoteId = id)
  keys := c.Keys

end Host

/-- No connection stands for a peer that another one stands for, and each has a record of its peer that is no less than
the stored one. -/
structure Ledger (K : Crypto) (h : Host) : Prop where
  sorted : h.db.Sorted
  noZero : h.db.lookup (zeroId K) = none
  named : ∀ ep c, h.conn ep = some c → c.remoteEp = ep ∧ ep ≠ {} ∧ c.remoteId ≠ zeroId K
  held : ∀ ep c, h.conn ep = some c → c.Holds K → AtEp ep c.record ∧
    ∀ r, h.db.lookup c.remoteId = some r → r.account.Le c.record.account ∧ AtEp ep r
  single : ∀ ep c ep' c', h.conn ep = some c → h.conn ep' = some c' → c.Holds K → c'.Holds K →
    c.remoteId = c'.remoteId → ep = ep'

section
variable {K : Crypto} {h : Host} {ep : Endpoint} {c c' : Conn}

theorem Host.conn_peers (hc : h.conn ep = some c) : c.peers = h.db := by
  obtain ⟨c₀, -, rfl⟩ := Option.map_eq_some_iff.mp hc
  rfl

/-- The stored record of a peer is for the endpoint of the connection that stands for it. -/
theorem Ledger.away (hL : Ledger K h) (hep : ep ≠ {}) (c : Conn) : Away (h.callOn K ep c) := by
  rintro id ⟨ep', c', hne, hc', hh, rfl⟩ r hr heq
  obtain ⟨-, hheld⟩ := hL.held ep' c' hc' hh
  rcases (hheld r hr).2 with hat | hat
  · exact hne (hat.symm.trans heq)
  · exact hep (heq.symm.trans hat)

theorem Ledger.balanced (hL : Ledger K h) (hc : h.conn ep = some c) (env : Env) :
    Balanced K (h.callOn K ep c) { c with env := env } := by
  obtain ⟨hep, -, hid⟩ := hL.named ep c hc
  have hpeers := Host.conn_peers hc
  refine ⟨hpeers ▸ hL.sorted, ?_, ?_, hpeers ▸ hL.noZero, hep, hid, ?_, ?_, ?_⟩
  · exact hpeers ▸ PeerDb.Grows.refl h.db
  · exact fun id _ => congrArg (PeerDb.lookup · id) hpeers
  · rintro hh ⟨ep', c', hne, hc', hh', heq⟩
    exact hne (hL.single ep' c' ep c hc' hc hh' hh heq)
  · exact fun hh => hep ▸ (hL.held ep c hc hh).1
  · intro hh
    change ∀ r, c.peers.lookup c.remoteId = some r → r.account.Le c.record.account ∧ AtEp c.remoteEp r
    rw [hpeers, hep]
    exact (hL.held ep c hc hh).2

/-- The counters of the connection, and those that are stored for its endpoint, have room for a fee. -/
def Roomy (h : Host) (c : Conn) : Prop :=
  Room c.record.account ∧ ∀ e ∈ h.db.entries, e.2.lastEp = c.remoteEp → Room e.2.account

instance (h : Host) (c : Conn) : Decidable (Roomy h c) := inferInstanceAs (Decidable (_ ∧ _))

theorem Ledger.intact (hL : Ledger K h) (hc : h.conn ep = some c) (hroom : Roomy h c) (env : Env) :
    Intact K (h.callOn K ep c) { c with env := env } := by
  have hpeers := Host.conn_peers hc
  refine ⟨hL.balanced hc env, rfl, hroom.1, ?_, ?_, ?_⟩
  · intro id r hr hep
    obtain ⟨e, he, rfl⟩ := PeerDb.mem_of_lookup hr
    exact hroom.2 e (hpeers ▸ he) hep
  · intro id hid
    exact ⟨by rw [← hid.1, ← hpeers], hid.2⟩
  · exact ⟨(Keyed.keys c).blank, (Keyed.keys c).bf, (Keyed.keys c).record, (Keyed.keys c).stored⟩

/-- What a call leaves keeps the ledger in order, whether the connection stays or goes. -/
theorem Ledger.update (hL : Ledger K h) {x : Call} (hs : Balanced K x c') (hx : x.db = h.db) (htaken : x.taken = h.Taken K ep)
    (hxep : x.ep = ep) (hep : ep ≠ {}) {o : Option Conn} (ho : o = some c' ∨ o = none) :
    Ledger K ⟨c'.peers, Function.update h.conns ep o⟩ := by
  have hself : ∀ c₁, (Host.mk c'.peers (Function.update h.conns ep o)).conn ep = some c₁ → c₁ = c' := by
    intro c₁ hc₁
    simp only [Host.conn, Function.update_self] at hc₁
    rcases ho with rfl | rfl
    · exact (Option.some.inj hc₁).symm
    · cases hc₁
  have hother : ∀ ep', ep' ≠ ep → ∀ c₁, (Host.mk c'.peers (Function.update h.conns ep o)).conn ep' = some c₁ →
      ∃ c₀, h.conn ep' = some c₀ ∧ c₁ = { c₀ with peers := c'.peers } := by
    intro ep' hne c₁ hc₁
    rw [h.conn_update_ne hne] at hc₁
    obtain ⟨c₀, hc₀, rfl⟩ := Option.map_eq_some_iff.mp hc₁
    exact ⟨c₀, hc₀, rfl⟩
  -- the peers of other connections are not touched
  have hframe : ∀ ep' c₀, ep' ≠ ep → h.conn ep' = some c₀ → c₀.Holds K →
      c'.peers.lookup c₀.remoteId = h.db.lookup c₀.remoteId := by
    intro ep' c₀ hne hc₀ hh
    rw [← hx]
    apply hs.frame
    rw [htaken]
    exact ⟨ep', c₀, hne, hc₀, hh, rfl⟩
  have hfree : c'.Holds K → ∀ ep' c₀, ep' ≠ ep → h.conn ep' = some c₀ → c₀.Holds K → c₀.remoteId ≠ c'.remoteId := by
    intro hh ep' c₀ hne hc₀ hh₀ heq
    apply hs.free hh
    rw [htaken]
    exact ⟨ep', c₀, hne, hc₀, hh₀, heq⟩
  refine ⟨hs.sorted, hs.noZero, ?_, ?_, ?_⟩
  · intro ep' c₁ hc₁
    rcases eq_or_ne ep' ep with rfl | hne
    · obtain rfl := hself c₁ hc₁
      exact ⟨hs.ep.trans hxep, hep, hs.named⟩
    · obtain ⟨c₀, hc₀, rfl⟩ := hother ep' hne c₁ hc₁
      exact hL.named ep' c₀ hc₀
  · intro ep' c₁ hc₁ hh
    rcases eq_or_ne ep' ep with rfl | hne
    · obtain rfl := hself c₁ hc₁
      have heq : c₁.remoteEp = ep' := hs.ep.trans hxep
      exact ⟨heq ▸ hs.atEp hh, heq ▸ hs.stored hh⟩
    · obtain ⟨c₀, hc₀, rfl⟩ := hother ep' hne c₁ hc₁
      obtain ⟨hat, hheld⟩ := hL.held ep' c₀ hc₀ hh
      refine ⟨hat, ?_⟩
      change ∀ r, c'.peers.lookup c₀.remoteId = some r → r.account.Le c₀.record.account ∧ AtEp ep' r
      rw [hframe ep' c₀ hne hc₀ hh]
      exact hheld
  · intro ep₁ c₁ ep₂ c₂ hc₁ hc₂ hh₁ hh₂ heq
    by_cases hep₁ : ep₁ = ep <;> by_cases hep₂ : ep₂ = ep
    · exact hep₁.trans hep₂.symm
    · obtain rfl := hself c₁ (hep₁ ▸ hc₁)
      obtain ⟨c₀, hc₀, rfl⟩ := hother ep₂ hep₂ c₂ hc₂
      exact absurd heq.symm (hfree hh₁ ep₂ c₀ hep₂ hc₀ hh₂)
    · obtain rfl := hself c₂ (hep₂ ▸ hc₂)
      obtain ⟨c₀, hc₀, rfl⟩ := hother ep₁ hep₁ c₁ hc₁
      exact absurd heq (hfree hh₂ ep₁ c₀ hep₁ hc₀ hh₁)
    · obtain ⟨c₀, hc₀, rfl⟩ := hother ep₁ hep₁ c₁ hc₁
      obtain ⟨c₃, hc₃, rfl⟩ := hother ep₂ hep₂ c₂ hc₂
      exact hL.single ep₁ c₀ ep₂ c₃ hc₀ hc₃ hh₁ hh₂ heq

/-- What is asked of an event: the endpoint is one, counters do not wrap, and peers authenticate where `AuthGuard` lets
them. -/
def Regular (K : Crypto) (h : Host) : LedgerEvent → Prop
  | .host (.create ep _) => ep ≠ {}
  | .host (.event ep (.packet b _)) => ∀ c, h.conn ep = some c → Roomy h c ∧ AuthGuard K (h.callOn K ep c) c b
  | .host (.event _ (.advance _)) | .host (.event _ (.close _)) | .host (.destroy _ _) => True
  | .call ep _ _ => ∀ c, h.conn ep = some c → Room c.record.account

/-- A new connection stands for nobody. -/
theorem Ledger.created (hL : Ledger K h) (hzero : zeroId K ≠ 0) (env : Env) :
    Balanced K (h.callOn K ep (Conn.init ep h.db)) { Conn.init ep h.db with env := env } := by
  have hnot : ¬ Conn.Holds K { Conn.init ep h.db with env := env } := fun hh => hzero hh
  refine ⟨hL.sorted, .refl _, fun _ _ => rfl, hL.noZero, rfl, Ne.symm hzero, ?_, ?_, ?_⟩
  · exact fun hh => absurd hh hnot
  · exact fun hh => absurd hh hnot
  · exact fun hh => absurd hh hnot

/-- What an event leads to keeps the accounts, on the connection that it is for. -/
theorem Ledger.handled (hL : Ledger K h) (hzero : zeroId K ≠ 0) {e : LedgerEvent} (hok : Regular K h e)
    (hc : h.subject e = some c) (fuel : Nat) :
    e.endpoint ≠ {} ∧ Balanced K (h.callOn K e.endpoint c) ((e.handler K fuel).final { c with env := e.env }) := by
  have hnamed {ep : Endpoint} (hconn : h.conn ep = some c) : ep ≠ {} := (hL.named ep c hconn).2.1
  cases e with
  | host e =>
    cases e with
    | create ep env =>
      obtain rfl := Host.subject_create hc
      exact ⟨hok, Triple.final (construct_balanced (hL.away hok _) (hL.created hzero env)) rfl⟩
    | event ep e =>
      refine ⟨hnamed hc, ?_⟩
      cases e with
      | packet b env =>
        obtain ⟨hroom, hguard⟩ := hok c hc
        exact Triple.final (handlePacket_balanced (hL.away (hnamed hc) c) (hL.intact hc hroom env) hguard fuel) rfl
      | advance env => exact Triple.final advance_balanced (hL.balanced hc env)
      | close env => exact Triple.final (Balanced.closed K _).close (hL.balanced hc env)
    | destroy ep env => exact ⟨hnamed hc, Triple.final destruct_balanced (hL.balanced hc env)⟩
  | call ep l env => exact ⟨hnamed hc, Triple.final (localCall_balanced l) ⟨hL.balanced hc env, hok c hc⟩⟩

theorem Ledger.step {fuel : Nat} {h' : Host} {e : LedgerEvent} (hzero : zeroId K ≠ 0) (hL : Ledger K h)
    (hok : Regular K h e) (hs : h.ledgerStep K fuel e = some h') : h.db.Grows h'.db ∧ Ledger K h' := by
  rcases Host.ledgerStep_cases hs with rfl | ⟨c, o, hc, ho, rfl⟩
  · exact ⟨.refl _, hL⟩
  · obtain ⟨hep, hend⟩ := hL.handled hzero hok hc fuel
    exact ⟨hend.grows, hL.update hend rfl rfl rfl hep ho⟩

/-- In every run of a node whose events are regular, no step makes a stored counter smaller or changes a first contact,
for any peer: while one connection stands for a peer no other one authenticates it, a peer that is stored authenticates
only on the connection that stands for it, and no counter is about to wrap. -/
theorem accounts_persist {fuel : Nat} {db : PeerDb} {es : List LedgerEvent} (hzero : zeroId K ≠ 0) (hdb : db.Sorted)
    (hnone : db.lookup (zeroId K) = none) (hg : Guarded (Host.ledgerStep K fuel) (Regular K) (.init db) es) :
    Always (Host.ledgerStep K fuel) (fun h _ h' => h.db.Grows h'.db) (.init db) es := by
  refine always_of_guarded (Ledger K) (fun h e h' hL hok hs => hL.step hzero hok hs) ?_ hg
  have hempty : ∀ ep, (Host.init db).conn ep = none := fun _ => rfl
  refine ⟨hdb, hnone, ?_, ?_, ?_⟩
  · intro ep c hc
    cases (hempty ep).symm.trans hc
  · intro ep c hc
    cases (hempty ep).symm.trans hc
  · intro ep c ep' c' hc
    cases (hempty ep).symm.trans hc

def Host.Alone (ep : Endpoint) (h : Host) : Prop := ∀ ep', ep' ≠ ep → h.conn ep' = none

/-- An event adds no connection for another endpoint. -/
theorem Host.Alone.step {fuel : Nat} {h' : Host} {e : LedgerEvent} (ha : h.Alone e.endpoint)
    (hs : h.ledgerStep K fuel e = some h') : h'.Alone e.endpoint := by
  rcases Host.ledgerStep_cases hs with rfl | ⟨c, o, -, -, rfl⟩
  · exact ha
  · intro ep' hne
    rw [h.conn_update_ne hne, ha ep' hne]
    rfl

/-- A finite set of stages, in which every auth message is of a peer that is new to the database and to the connection. -/
def FreshStages (K : Crypto) (T : List Bytes) (h : Host) (c : Conn) (b : Bytes) : Prop :=
  b.length % 8 ≠ 0 ∨ b ∈ T ∧ (∀ d ∈ T, ∀ k ∈ c.keyList, K.decrypt k d ∈ T) ∧
    ∀ d ∈ T, ∀ payload ∈ payloadOf d ((d.getD 3 0).toNat % 8), checksumOk K d = true → ∀ m ∈ K.readAuth payload,
      K.sha1 m.pubk ≠ zeroId K ∧ (h.db.lookup (K.sha1 m.pubk)).isNone ∧
        ¬ (K.sha1 c.record.publicKey = c.remoteId ∧ c.remoteId = K.sha1 m.pubk)

instance (K : Crypto) (T : List Bytes) (h : Host) (c : Conn) (b : Bytes) : Decidable (FreshStages K T h c b) :=
  inferInstanceAs (Decidable (_ ∨ _ ∧ _ ∧ _))

theorem FreshStages.authGuard {T : List Bytes} {b : Bytes} (hf : FreshStages K T h c b) (ha : h.Alone ep) :
    AuthGuard K (h.callOn K ep c) c b := by
  intro payload m hop hm hv
  obtain ⟨hb, hT, hfresh⟩ := hf.resolve_left fun hlen => hlen hop.frame
  have hT' (d : Bytes) (hd : d ∈ T) (k : Bytes) (hk : c.Keys k) : K.decrypt k d ∈ T := hT d hd k hk.mem_keyList
  obtain ⟨d, k, hd, -, hk, hsum, -, hpay⟩ := hop
  obtain ⟨hzero, hnone, hnot⟩ := hfresh _ (hT' d (hd.mem hb hT') k hk) payload hpay hsum m hm
  refine ⟨hzero, ?_, .inl ⟨Option.isNone_iff_eq_none.mp hnone, hnot⟩⟩
  rintro ⟨ep', c', hne, hc', -⟩
  cases (ha ep' hne).symm.trans hc'

/-- The conditions of `Regular`, for a run with one endpoint whose datagrams have finitely many stages. -/
def RegularAt (K : Crypto) (ep : Endpoint) (T : List Bytes) (h : Host) : LedgerEvent → Prop
  | .host (.create ep' _) => ep' = ep ∧ ep ≠ {}
  | .host (.event ep' (.packet b _)) => ep' = ep ∧ ∀ c ∈ h.conn ep', Roomy h c ∧ FreshStages K T h c b
  | .host (.event ep' (.advance _)) | .host (.event ep' (.close _)) | .host (.destroy ep' _) => ep' = ep
  | .call ep' _ _ => ep' = ep ∧ ∀ c ∈ h.conn ep', Room c.record.account

instance (K : Crypto) (ep : Endpoint) (T : List Bytes) (h : Host) : (e : LedgerEvent) → Decidable (RegularAt K ep T h e)
  | .host (.create _ _) => inferInstanceAs (Decidable (_ ∧ _))
  | .host (.event _ (.packet _ _)) => inferInstanceAs (Decidable (_ ∧ _))
  | .host (.event _ (.advance _)) | .host (.event _ (.close _)) | .host (.destroy _ _) => inferInstanceAs (Decidable (_ = _))
  | .call _ _ _ => inferInstanceAs (Decidable (_ ∧ _))

theorem RegularAt.endpoint_eq {T : List Bytes} {e : LedgerEvent} (hr : RegularAt K ep T h e) : e.endpoint = ep := by
  cases e with
  | host e =>
    cases e with
    | create ep' env => exact hr.1
    | event ep' e =>
      cases e with
      | packet b env => exact hr.1
      | advance env => exact hr
      | close env => exact hr
    | destroy ep' env => exact hr
  | call ep' l env => exact hr.1

theorem RegularAt.regular {T : List Bytes} {e : LedgerEvent} (hr : RegularAt K ep T h e) (ha : h.Alone ep) :
    Regular K h e := by
  cases e with
  | host e =>
    cases e with
    | create ep' env => exact hr.1 ▸ hr.2
    | event ep' e =>
      cases e with
      | packet b env =>
        obtain ⟨rfl, hpacket⟩ := hr
        intro c hc
        exact ⟨(hpacket c hc).1, (hpacket c hc).2.authGuard ha⟩
      | advance env => trivial
      | close env => trivial
    | destroy ep' env => trivial
  | call ep' l env => exact hr.2

private theorem guarded_regular {fuel : Nat} {db : PeerDb} {T : List Bytes} {es : List LedgerEvent}
    (hg : Guarded (Host.ledgerStep K fuel) (RegularAt K ep T) (.init db) es) :
    Guarded (Host.ledgerStep K fuel) (Regular K) (.init db) es := by
  refine guarded_of_invariant (Host.Alone ep) (fun h e h' ha hr hs => ?_) (fun h e ha hr => hr.regular ha) ?_ hg
  · obtain rfl := hr.endpoint_eq
    exact ha.step hs
  · exact fun _ _ => rfl

/-- The peer of `peerRun`. -/
def peerId : Sha1 := nodeCrypto.sha1 (List.replicate 256 8)

/-- A peer authenticates, a lookup that it answers is credited to it, and the connection is closed. -/
def creditRun : List LedgerEvent :=
  peerRun.map .host ++ [.call peerEp .foundNodesNear {}, .host (.event peerEp (.close {}))]

/-- The run that credits the peer, and the record that it leaves. -/
private theorem creditRun_facts : zeroId nodeCrypto ≠ 0 ∧
    Guarded (Host.ledgerStep nodeCrypto 2) (RegularAt nodeCrypto peerEp peerStages) (.init ⟨nodeId, []⟩) creditRun ∧
    ∃ h, h ∈ run (Host.ledgerStep nodeCrypto 2) (.init ⟨nodeId, []⟩) creditRun ∧
      ∃ r, r ∈ h.db.lookup peerId ∧ r.recvCredit = REQUEST_NODES_NEAR_FEE := by
  refine ⟨?_, ?_, ?_⟩ <;> decide +kernel

theorem accounts_persist_credit :
    Always (Host.ledgerStep nodeCrypto 2) (fun h _ h' => h.db.Grows h'.db) (.init ⟨nodeId, []⟩) creditRun ∧
    ∃ h r, run (Host.ledgerStep nodeCrypto 2) (.init ⟨nodeId, []⟩) creditRun = some h ∧ h.db.lookup peerId = some r ∧
      r.recvCredit = REQUEST_NODES_NEAR_FEE := by
  obtain ⟨hzero, hg, h, hr, r, hlook, hcredit⟩ := creditRun_facts
  refine ⟨accounts_persist hzero List.Pairwise.nil rfl (guarded_regular hg), h, r, hr, hlook, hcredit⟩

def movedEp : Endpoint := { ip := 1, port := 3 }

/-- The peer comes back from its new endpoint and exchanges keys. -/
def movedRun : List LedgerEvent :=
  creditRun ++ [.host (.create movedEp {}), .host (.event movedEp (.packet peerDh { fresh := ownKey }))]

/-- When it authenticates there, a record that starts at zero is stored over its account. -/
theorem account_lost : ∃ h h' r r', run (Host.ledgerStep nodeCrypto 2) (.init ⟨nodeId, []⟩) movedRun = some h ∧
    h.ledgerStep nodeCrypto 2 (.host (.event movedEp (.packet (peerStages.headD []) {}))) = some h' ∧
    h.db.lookup peerId = some r ∧ h'.db.lookup peerId = some r' ∧ r'.recvCredit < r.recvCredit := by
  have hlost : ∃ h, h ∈ run (Host.ledgerStep nodeCrypto 2) (.init ⟨nodeId, []⟩) movedRun ∧
      ∃ h', h' ∈ h.ledgerStep nodeCrypto 2 (.host (.event movedEp (.packet (peerStages.headD []) {}))) ∧
        ∃ r, r ∈ h.db.lookup peerId ∧ ∃ r', r' ∈ h'.db.lookup peerId ∧ r'.recvCredit < r.recvCredit := by
    decide +kernel
  obtain ⟨h, hr, h', hs, r, hlook, r', hlook', hlt⟩ := hlost
  exact ⟨h, h', r, r', hr, hs, hlook, hlook', hlt⟩

end

end Tornet.Connection
