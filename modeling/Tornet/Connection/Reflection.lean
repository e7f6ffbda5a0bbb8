import Tornet.Connection.Framing
import Tornet.Connection.Host

/-! A node that is connected to itself. Its signature names neither side and both directions use one key,
so an auth message of its own that comes back is verified like one of a peer. -/
namespace Tornet.Connection
open Library Runs Eff

/-- No record is stored under the node's own id. -/
structure NoOwnRecord (own : Sha1) (db : PeerDb) : Prop where
  nodeId : db.nodeId = own
  dist : ∀ e ∈ db.entries, e.1 ≠ 0

/-- The peer is another node, and so are all that are stored. -/
def Other (own : Sha1) (c : Conn) : Prop := c.remoteId ≠ own ∧ NoOwnRecord own c.peers

section
variable {K : Crypto} {own : Sha1} {S : Bytes → Prop}

theorem NoOwnRecord.store {db : PeerDb} {nid : Sha1} (h : NoOwnRecord own db) (hne : nid ≠ own) (r : PeerRecord) :
    NoOwnRecord own (db.store nid r) := by
  refine ⟨h.nodeId, fun e he => ?_⟩
  rcases PeerDb.mem_put he with rfl | he
  · exact fun hz => hne ((BitVec.xor_eq_zero_iff.mp hz).trans h.nodeId)
  · exact h.dist e he

theorem NoOwnRecord.fetch {db : PeerDb} {ep : Endpoint} {nid : Sha1} {r : PeerRecord} (h : NoOwnRecord own db)
    (hf : db.fetchByEndpoint ep = some (nid, r)) : nid ≠ own := by
  obtain ⟨e, he, -, rfl, -⟩ := PeerDb.fetchByEndpoint_mem hf
  intro hown
  refine h.dist e he ((BitVec.xor_left_inj db.nodeId).mp ?_)
  exact hown.trans (h.nodeId.symm.trans BitVec.zero_xor.symm)

theorem other_lax (own : Sha1) : Lax (Other own) where
  env _ h := h
  sent _ h := h
  lookups _ h := h
  publicEp _ h := h
  record _ _ h := h
  store h := ⟨h.1, h.2.store h.1 _⟩

/-- What is carried through a datagram: the peer is another node, the key pair does not change. -/
def Aside (S : Bytes → Prop) (own : Sha1) (dh₀ : Option Dh) (c : Conn) : Prop :=
  Keyed S c ∧ Other own c ∧ c.dh = dh₀

theorem aside_carry (S : Bytes → Prop) (own : Sha1) (dh₀ : Option Dh) : Carry S False (Aside S own dh₀) (Other own) where
  lax := (Keyed.lax S).and ((other_lax own).and (.of fun _ dh _ _ => dh = dh₀))
  keyed h := h.1
  uninit h := ⟨⟨h.1.blank, h.1.bf, h.1.record, h.1.stored⟩, h.2⟩
  connected h := ⟨⟨h.1.blank, h.1.bf, h.1.record, h.1.stored⟩, h.2⟩
  resume h hf := ⟨h.1.resume hf, ⟨h.2.1.2.fetch hf, h.2.1.2⟩, h.2.2⟩
  final h _ := h.2.1

/-- What an exchange of keys changes is not looked at. -/
theorem processDh_other (b : Bytes) : Post (Other own) (processDh K b) (fun _ => Other own) (Err False (Other own)) := by
  refine .get_bind fun c hc => ?_
  split
  · exact .throw fun _ _ => ⟨fun h => absurd h (by decide), False.elim⟩
  · exact .modify fun _ h => h ▸ hc

private theorem answerDh_other (b : Bytes) :
    Post (Other own) (do processDh K b; sendAuth K) (fun _ => Other own) (Err False (Other own)) :=
  .bind (processDh_other b) fun _ => sendAuth_keeps (other_lax own) False.elim False.elim

theorem goto_other (s : State) : Post (Other own) (gotoState s) (fun _ => Other own) (Err False (Other own)) :=
  gotoState_post fun _ h => h

theorem sendDh_other : Post (Other own) sendDh (fun _ => Other own) (Err False (Other own)) :=
  sendDh_keeps (other_lax own) False.elim

/-- The keys are exchanged: the own auth message goes out. -/
theorem receivedDh_other (b : Bytes) :
    Post (Other own) (do processDh K b; sendAuth K; gotoState .receivedDh) (fun _ => Other own) (Err False (Other own)) :=
  .bind (processDh_other b) fun _ => .bind (sendAuth_keeps (other_lax own) False.elim False.elim)
    fun _ => goto_other .receivedDh

theorem startDh_other (b : Bytes) : Post (Other own) (startDh K b) (fun _ => Other own) (Err False (Other own)) := by
  refine .bind (R := fun _ => Other own) (.modify fun _ h => h) fun _ => .bind sendDh_other fun _ => ?_
  exact .ite (fun _ => receivedDh_other b) fun _ => goto_other .generatedDh

private theorem handleGeneratedDh_other (b : Bytes) :
    Post (Other own) (handleGeneratedDh K b) (fun _ => Other own) (Err False (Other own)) :=
  .ite (fun _ => receivedDh_other b) fun _ => sendDh_other

private theorem advance_other : Post (Other own) (advance K) (fun _ => Other own) (Err False (Other own)) := by
  refine .bind (R := fun _ => Other own) (.modify fun _ h => h) fun _ => .get_keep fun c _ => ?_
  refine .ite (fun _ => goto_other .failed) fun _ => ?_
  split
  · exact .pure fun _ => id
  · refine .bind (R := fun _ => Other own) (.modify fun _ h => h) fun _ => ?_
    exact .bind sendDh_other fun _ => goto_other .generatedDh
  · exact sendDh_other
  · exact .bind sendDh_other fun _ => sendAuth_keeps (other_lax own) False.elim False.elim
  · exact sendAuthResponse_keeps (other_lax own) False.elim _
  · exact .modify fun _ h => h

/-- The datagram brings no auth message of the node itself: no stage of it, under the keys of the connection,
is one with the node's own key and a signature that stands for the shared key. -/
def NotReflected (K : Crypto) (own : Sha1) (c : Conn) : Event → Prop
  | .packet b _ => ∀ payload m dh, OpensAuth K c.Keys b payload → K.readAuth payload = some m → c.dh = some dh →
      K.verify m.pubk (K.sha1 (dh.sharedKey ++ leBytes 8 m.utc.toNat)) m.sig = true → K.sha1 m.pubk ≠ own
  | .advance _ | .close _ => True

private theorem handler_other (fuel : Nat) (c : Conn) (e : Event) (hc : Other own c) (hok : NotReflected K own c e) :
    Post (fun t => t = { c with env := e.env }) (e.handler K fuel) (fun _ => Other own) (Err False (Other own)) := by
  have hc' : Other own { c with env := e.env } := hc
  cases e with
  | packet b env =>
    have C := aside_carry c.Keys own c.dh
    refine C.handlePacket (fun payload hop => ?_) ?_ fuel ?_ (fun _ => False.elim) hc'
      (fun _ => (handleGeneratedDh_other b).named hc') fun _ _ => .named ?_ hc'
    · refine C.handleAuthMsg (other_lax own) False.elim (fun _ => id) (fun _ h => h) False.elim ?_
      intro t m dh ht hm hdh hv nat v r
      exact ⟨hok payload m dh hop hm (ht.1.2.2 ▸ hdh) hv, ht.1.2.1.2⟩
    · exact fun d => (startDh_other d).conseq (fun _ h => h.1.2.1) (fun _ _ => id) fun _ _ => id
    · exact fun _ => ⟨(Keyed.lax _).env env (Keyed.keys c), hc', rfl⟩
    · exact .bind sendDh_other fun _ => answerDh_other b
  | advance env => exact advance_other.named hc'
  | close env => exact (close_post (other_lax own) (fun _ h => h) False.elim).named hc'

private theorem other_hosted (hown : own ≠ 0) (fuel : Nat) :
    Hosted K fuel False (Other own) (NoOwnRecord own) (NotReflected K own) where
  db h := h.2
  swap _ _ h hdb := ⟨h.1, hdb⟩
  construct ep db env hdb := by
    refine construct_post (other_lax own) (fun _ => id) (fun _ h => h) ⟨hown.symm, hdb⟩ fun nid r hf => ?_
    exact ⟨hdb.fetch hf, hdb⟩
  handle := handler_other fuel
  destruct := destruct_keeps (other_lax own)

end

/-- In every run of a node in which no auth message of its own comes back to it, no connection is ever
connected to the node itself, whatever else is sent to it; provided that the own id is not the one of
a connection without a peer, and that no record of the own id was stored before. -/
theorem never_self (K : Crypto) (fuel : Nat) (own : Sha1) (hown : own ≠ 0) (db : PeerDb) (hdb : NoOwnRecord own db)
    (es : List HostEvent) (h : Host) (hg : Guarded (Host.step K fuel) (Host.Each (NotReflected K own)) (.init db) es)
    (hr : run (Host.step K fuel) (.init db) es = some h) (ep : Endpoint) (c : Conn) (hc : h.conn ep = some c) :
    ¬ (c.curState = .connected ∧ c.remoteId = own) := by
  have hinv : h.Inv (Other own) (NoOwnRecord own) := (other_hosted hown fuel).run hdb hg hr
  rintro ⟨-, hself⟩
  exact (hinv.2 ep c hc).1 hself

def nodeKey : Bytes := List.replicate 256 9

/-- An auth message is a signature, a public key and the time. -/
def signedPayload (pubk key : Bytes) (utc : UInt64) : Bytes :=
  sha1Bytes (xorCrypto.sha1 (key ++ leBytes 8 utc.toNat) ^^^ BitVec.ofNat 160 256) ++ pubk ++ leBytes 8 utc.toNat

/-- The small cryptography with the auth messages of the node. -/
def nodeCrypto : Crypto :=
  { xorCrypto with
    readAuth := fun b => if b.length < 284 then none else
      some { sig := b.take 20, pubk := (b.drop 20).take 256, nonce := (0, 0), ep := {}
             utc := UInt64.ofNat (((b.drop 276).take 8).foldr (fun x n => x.toNat + 256 * n) 0) }
    authPayload := signedPayload nodeKey }

def nodeId : Sha1 := nodeCrypto.sha1 nodeKey

def xorEncrypt : Bytes → Bytes → Bytes := xorCrypto.decrypt

/-- What the node sends once it has the public key of the peer. -/
def nodeAuth : Outgoing := .frame .auth (signedPayload nodeKey sharedKey 0) sharedKey

/-- A new connection gets the public key of a peer. -/
def exchangeRun : List HostEvent := [.create peerEp {}, .event peerEp (.packet peerDh { fresh := ownKey })]

/-- A finite set of stages, none of which is an auth message of the node. -/
def ForeignStages (K : Crypto) (own : Sha1) (T : List Bytes) (c : Conn) : Event → Prop
  | .packet b _ => b.length % 8 ≠ 0 ∨ b ∈ T ∧ (∀ d ∈ T, ∀ k ∈ c.keyList, K.decrypt k d ∈ T) ∧
      ∀ d ∈ T, ∀ payload ∈ payloadOf d ((d.getD 3 0).toNat % 8), checksumOk K d = true →
        ∀ m ∈ K.readAuth payload, K.sha1 m.pubk ≠ own
  | .advance _ | .close _ => True

instance (K : Crypto) (own : Sha1) (T : List Bytes) (c : Conn) : (e : Event) → Decidable (ForeignStages K own T c e)
  | .packet _ _ => inferInstanceAs (Decidable (_ ∨ _ ∧ _ ∧ _))
  | .advance _ | .close _ => isTrue trivial

theorem ForeignStages.notReflected {K : Crypto} {own : Sha1} {T : List Bytes} {c : Conn} {e : Event}
    (h : ForeignStages K own T c e) : NotReflected K own c e := by
  cases e with
  | packet b env =>
    intro payload m dh hop hm _ _
    obtain ⟨hb, hT, hforeign⟩ := h.resolve_left fun hlen => hlen hop.frame
    have hT' (d : Bytes) (hd : d ∈ T) (k : Bytes) (hk : c.Keys k) : K.decrypt k d ∈ T := hT d hd k hk.mem_keyList
    obtain ⟨d, k, hd, -, hk, hsum, -, hpay⟩ := hop
    exact hforeign _ (hT' d (hd.mem hb hT') k hk) payload hpay hsum m hm
  | advance env => trivial
  | close env => trivial

def peerStages : List Bytes :=
  let plain := plainFrame nodeCrypto .auth (signedPayload (List.replicate 256 8) sharedKey 0)
  [xorEncrypt sharedKey plain, plain]

def peerRun : List HostEvent := exchangeRun ++ [.event peerEp (.packet (peerStages.headD []) {})]

/-- The run of a handshake with a peer, and its end. -/
private theorem peerRun_facts : nodeId ≠ 0 ∧
    Guarded (Host.step nodeCrypto 2) (Host.Each (ForeignStages nodeCrypto nodeId peerStages)) (.init ⟨nodeId, []⟩) peerRun ∧
    ∃ h, h ∈ run (Host.step nodeCrypto 2) (.init ⟨nodeId, []⟩) peerRun ∧
      ∃ c, c ∈ h.conn peerEp ∧ c.curState = .connected := by
  refine ⟨?_, ?_, ?_⟩ <;> decide +kernel

theorem never_self_peer : ∃ h c, run (Host.step nodeCrypto 2) (.init ⟨nodeId, []⟩) peerRun = some h ∧
    h.conn peerEp = some c ∧ c.curState = .connected ∧ c.remoteId ≠ nodeId := by
  obtain ⟨hown, hforeign, h, hr, c, hc, hst⟩ := peerRun_facts
  have hg : Guarded (Host.step nodeCrypto 2) (Host.Each (NotReflected nodeCrypto nodeId)) (.init ⟨nodeId, []⟩) peerRun :=
    Host.guarded_each_mono (fun _ _ hf => hf.notReflected) hforeign
  have hdb : NoOwnRecord nodeId ⟨nodeId, []⟩ := ⟨rfl, fun _ he => absurd he List.not_mem_nil⟩
  have hne := never_self nodeCrypto 2 nodeId hown ⟨nodeId, []⟩ hdb peerRun h hg hr peerEp c hc
  exact ⟨h, c, hr, hc, hst, fun hself => hne ⟨hst, hself⟩⟩

/-- After the public key of the peer, the auth message the node has answered with. -/
def reflectedRun : List HostEvent :=
  exchangeRun ++ [.event peerEp (.packet (nodeAuth.datagram nodeCrypto xorEncrypt 0) {})]

/-- The datagram that is reflected is one the node has sent, and the node is then connected to itself. -/
theorem connected_self :
    (∃ h, h ∈ run (Host.step nodeCrypto 2) (.init ⟨nodeId, []⟩) exchangeRun ∧
      ∃ c, c ∈ h.conn peerEp ∧ nodeAuth ∈ c.sent) ∧
    (∃ h, h ∈ run (Host.step nodeCrypto 2) (.init ⟨nodeId, []⟩) reflectedRun ∧
      ∃ c, c ∈ h.conn peerEp ∧ c.curState = .connected ∧ c.remoteId = nodeId) := by
  constructor <;> decide +kernel

end Tornet.Connection
