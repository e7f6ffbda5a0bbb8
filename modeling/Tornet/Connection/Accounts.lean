import Tornet.Connection.Host

/-! The accounts in the peer database: what a connection does to the stored records while it handles one call, as long as
it stores under an id that no other connection stands for. -/
namespace Tornet

/-- What a record keeps of the dealings with a peer. -/
structure Account where
  sentCredit : UInt64
  recvCredit : UInt64
  totalBtcRecv : UInt64
  totalBtcSent : UInt64
  firstContact : UInt64
  deriving DecidableEq, Repr

def PeerRecord.account (r : PeerRecord) : Account :=
  ⟨r.sentCredit, r.recvCredit, r.totalBtcRecv, r.totalBtcSent, r.firstContact⟩

/-- No counter is smaller, and a first contact stays. -/
structure Account.Le (a b : Account) : Prop where
  sentCredit : a.sentCredit ≤ b.sentCredit
  recvCredit : a.recvCredit ≤ b.recvCredit
  totalBtcRecv : a.totalBtcRecv ≤ b.totalBtcRecv
  totalBtcSent : a.totalBtcSent ≤ b.totalBtcSent
  firstContact : a.firstContact ≠ 0 → b.firstContact = a.firstContact

namespace Account.Le

theorem refl (a : Account) : a.Le a :=
  ⟨UInt64.le_refl _, UInt64.le_refl _, UInt64.le_refl _, UInt64.le_refl _, fun _ => rfl⟩

theorem trans {a b c : Account} (h : a.Le b) (h' : b.Le c) : a.Le c where
  sentCredit := UInt64.le_trans h.sentCredit h'.sentCredit
  recvCredit := UInt64.le_trans h.recvCredit h'.recvCredit
  totalBtcRecv := UInt64.le_trans h.totalBtcRecv h'.totalBtcRecv
  totalBtcSent := UInt64.le_trans h.totalBtcSent h'.totalBtcSent
  firstContact hne := by
    have hb := h.firstContact hne
    rw [← hb] at hne
    exact (h'.firstContact hne).trans hb

end Account.Le

namespace PeerDb

/-- Every account that was stored is still there, and no less. -/
def Grows (db db' : PeerDb) : Prop :=
  ∀ id r, db.lookup id = some r → ∃ r', db'.lookup id = some r' ∧ r.account.Le r'.account

theorem Grows.refl (db : PeerDb) : db.Grows db := fun _ r h => ⟨r, h, .refl _⟩

end PeerDb

namespace Connection
open Library Eff

/-- The id of the all-zero key, which is no key. -/
def zeroId (K : Crypto) : Sha1 := K.sha1 (List.replicate 256 0)

/-- The record is that of the peer, so that it can be stored: the connection stands for the peer. -/
def Conn.Holds (K : Crypto) (c : Conn) : Prop := K.sha1 c.record.publicKey = c.remoteId

def maxFee : Nat := 2048 * 11

def Room (a : Account) : Prop := a.sentCredit.toNat + maxFee < 2 ^ 64 ∧ a.recvCredit.toNat + maxFee < 2 ^ 64

instance (a : Account) : Decidable (Room a) := inferInstanceAs (Decidable (_ ∧ _))

def AtEp (ep : Endpoint) (r : PeerRecord) : Prop := r.lastEp = ep ∨ r.lastEp = {}

/-- One call on a connection: the database before it, the endpoint and the key exchange, the ids other connections stand
for, those that neither the database nor the connection knows, and the keys that come into question. -/
structure Call where
  db : PeerDb
  ep : Endpoint
  dh : Option Dh
  taken : Sha1 → Prop
  fresh : Sha1 → Prop
  keys : Bytes → Prop

/-- What a call leaves: no stored account is less than before it, those of other connections are as they were, and the
record of a peer that the connection stands for is no less than the stored one. -/
structure Balanced (K : Crypto) (x : Call) (c : Conn) : Prop where
  sorted : c.peers.Sorted
  grows : x.db.Grows c.peers
  frame : ∀ id, x.taken id → c.peers.lookup id = x.db.lookup id
  noZero : c.peers.lookup (zeroId K) = none
  ep : c.remoteEp = x.ep
  named : c.remoteId ≠ zeroId K
  free : c.Holds K → ¬ x.taken c.remoteId
  atEp : c.Holds K → AtEp c.remoteEp c.record
  stored : c.Holds K → ∀ r, c.peers.lookup c.remoteId = some r → r.account.Le c.record.account ∧ AtEp c.remoteEp r

/-- What holds until a fee is added or a peer authenticates. -/
structure Intact (K : Crypto) (x : Call) (c : Conn) : Prop extends Balanced K x c where
  dh : c.dh = x.dh
  room : Room c.record.account
  storedRoom : ∀ id r, c.peers.lookup id = some r → r.lastEp = c.remoteEp → Room r.account
  fresh : ∀ id, x.fresh id → c.peers.lookup id = none ∧ ¬ (c.Holds K ∧ c.remoteId = id)
  keyed : Keyed x.keys c

/-- A change that no account depends on. -/
structure Moves (c c' : Conn) : Prop where
  remoteId : c'.remoteId = c.remoteId
  remoteEp : c'.remoteEp = c.remoteEp
  peers : c'.peers = c.peers
  publicKey : c'.record.publicKey = c.record.publicKey
  account : c'.record.account = c.record.account
  lastEp : c'.record.lastEp = c.record.lastEp ∨ c'.record.lastEp = {}

/-- One that leaves the keys and the key exchange as well. -/
structure Steps (c c' : Conn) : Prop extends Moves c c' where
  dh : c'.dh = c.dh
  bf : c'.bf = c.bf
  bfKey : c'.record.bfKey = c.record.bfKey ∨ c'.record.bfKey = blankKey ∧ c'.record.lastEp = {}

/-- The parts of a connection that matter here. -/
structure Books where
  remoteId : Sha1
  remoteEp : Endpoint
  peers : PeerDb
  publicKey : Bytes
  account : Account
  lastEp : Endpoint
  dh : Option Dh
  bf : Option Bytes
  bfKey : Bytes

def Conn.books (c : Conn) : Books :=
  ⟨c.remoteId, c.remoteEp, c.peers, c.record.publicKey, c.record.account, c.record.lastEp, c.dh, c.bf, c.record.bfKey⟩

section
variable {K : Crypto} {x : Call} {c c' : Conn}

/-- A change of anything else. -/
theorem Steps.of_books (h : c'.books = c.books) : Steps c c' where
  remoteId := congrArg Books.remoteId h
  remoteEp := congrArg Books.remoteEp h
  peers := congrArg Books.peers h
  publicKey := congrArg Books.publicKey h
  account := congrArg Books.account h
  lastEp := .inl (congrArg Books.lastEp h)
  dh := congrArg Books.dh h
  bf := congrArg Books.bf h
  bfKey := .inl (congrArg Books.bfKey h)

theorem Moves.holds_iff (h : Moves c c') : c'.Holds K ↔ c.Holds K := by
  rw [Conn.Holds, Conn.Holds, h.publicKey, h.remoteId]

theorem AtEp.of_moves (h : Moves c c') (hep : AtEp c.remoteEp c.record) : AtEp c'.remoteEp c'.record := by
  rcases h.lastEp with heq | heq
  · rw [AtEp, heq, h.remoteEp]
    exact hep
  · exact .inr heq

theorem Balanced.moves (hs : Balanced K x c) (h : Moves c c') : Balanced K x c' where
  sorted := h.peers ▸ hs.sorted
  grows := h.peers ▸ hs.grows
  frame := h.peers ▸ hs.frame
  noZero := h.peers ▸ hs.noZero
  ep := h.remoteEp.trans hs.ep
  named := h.remoteId ▸ hs.named
  free hh := h.remoteId ▸ hs.free (h.holds_iff.mp hh)
  atEp hh := .of_moves h (hs.atEp (h.holds_iff.mp hh))
  stored hh := by
    rw [h.peers, h.remoteId, h.account, h.remoteEp]
    exact hs.stored (h.holds_iff.mp hh)

/-- A counter that grows. -/
theorem Balanced.grown (hs : Balanced K x c) {r : PeerRecord} (hkey : r.publicKey = c.record.publicKey)
    (hep : r.lastEp = c.record.lastEp) (hle : c.record.account.Le r.account) : Balanced K x { c with record := r } where
  sorted := hs.sorted
  grows := hs.grows
  frame := hs.frame
  noZero := hs.noZero
  ep := hs.ep
  named := hs.named
  free hh := hs.free (by rwa [Conn.Holds, hkey] at hh)
  atEp hh := by
    rw [AtEp, hep]
    exact hs.atEp (by rwa [Conn.Holds, hkey] at hh)
  stored hh r' hr' := by
    obtain ⟨hle', hep'⟩ := hs.stored (by rwa [Conn.Holds, hkey] at hh) r' hr'
    exact ⟨hle'.trans hle, hep'⟩

/-- A record that is the peer's is stored over one that is no more. -/
theorem Balanced.store (hs : Balanced K x c) (hh : c.Holds K) :
    Balanced K x { c with peers := c.peers.store c.remoteId c.record } where
  sorted := hs.sorted.store _ _
  grows := by
    intro id r hr
    obtain ⟨r₁, hr₁, hle⟩ := hs.grows id r hr
    by_cases hid : id = c.remoteId
    · subst hid
      exact ⟨c.record, by rw [PeerDb.lookup_store, if_pos rfl], hle.trans (hs.stored hh r₁ hr₁).1⟩
    · exact ⟨r₁, by rw [PeerDb.lookup_store, if_neg hid, hr₁], hle⟩
  frame := by
    intro id hid
    have hne : id ≠ c.remoteId := fun he => hs.free hh (he ▸ hid)
    rw [PeerDb.lookup_store, if_neg hne, hs.frame id hid]
  noZero := by rw [PeerDb.lookup_store, if_neg (Ne.symm hs.named), hs.noZero]
  ep := hs.ep
  named := hs.named
  free := hs.free
  atEp := hs.atEp
  stored _ r hr := by
    rw [PeerDb.lookup_store, if_pos rfl] at hr
    cases hr
    exact ⟨.refl _, hs.atEp hh⟩

theorem Intact.steps (hr : Intact K x c) (h : Steps c c') : Intact K x c' where
  toBalanced := hr.toBalanced.moves h.toMoves
  dh := h.dh.trans hr.dh
  room := h.account ▸ hr.room
  storedRoom := by
    rw [h.peers, h.remoteEp]
    exact hr.storedRoom
  fresh id hid := by
    rw [h.peers, h.holds_iff, h.remoteId]
    exact hr.fresh id hid
  keyed := by
    refine ⟨hr.keyed.blank, h.bf ▸ hr.keyed.bf, ?_, ?_⟩
    · rcases h.bfKey with heq | ⟨heq, -⟩
      · exact heq ▸ hr.keyed.record
      · exact heq ▸ hr.keyed.blank
    · rw [h.peers, h.remoteEp]
      exact hr.keyed.stored

theorem Intact.store (hr : Intact K x c) (hh : c.Holds K) :
    Intact K x { c with peers := c.peers.store c.remoteId c.record } where
  toBalanced := hr.toBalanced.store hh
  dh := hr.dh
  room := hr.room
  storedRoom id r hlook hep := by
    rw [PeerDb.lookup_store] at hlook
    split_ifs at hlook
    · cases hlook
      exact hr.room
    · exact hr.storedRoom id r hlook hep
  fresh id hid := by
    obtain ⟨hnone, hnot⟩ := hr.fresh id hid
    have hne : id ≠ c.remoteId := fun he => hnot ⟨hh, he.symm⟩
    exact ⟨by rw [PeerDb.lookup_store, if_neg hne, hnone], hnot⟩
  keyed := (Keyed.lax x.keys).store hr.keyed

/-- A record without a peer is nobody's. -/
theorem Intact.blank (hr : Intact K x c) (ep : Endpoint) : Intact K x { c with record := .blank ep } := by
  have hnot : ¬ Conn.Holds K { c with record := .blank ep } := fun hh => hr.named hh.symm
  have hroom : Room ⟨0, 0, 0, 0, 0⟩ := by decide
  exact ⟨⟨hr.sorted, hr.grows, hr.frame, hr.noZero, hr.ep, hr.named, fun hh => absurd hh hnot, fun hh => absurd hh hnot,
    fun hh => absurd hh hnot⟩, hr.dh, hroom, hr.storedRoom, fun id hid => ⟨(hr.fresh id hid).1, fun h => hnot h.1⟩,
    (Keyed.lax x.keys).record _ (.inr rfl) hr.keyed⟩

/-- The record that is stored for the endpoint is taken up: no other connection stands for its peer. -/
theorem Balanced.resume (hs : Balanced K x c) (haway : ∀ id, x.taken id → ∀ r, x.db.lookup id = some r → r.lastEp ≠ x.ep)
    {nid : Sha1} {r : PeerRecord} (hf : c.peers.fetchByEndpoint c.remoteEp = some (nid, r)) :
    Balanced K x { c with remoteId := nid, record := r, bf := some r.bfKey, resumed := true } := by
  obtain ⟨hlook, hep⟩ := hs.sorted.lookup_fetchByEndpoint hf
  refine ⟨hs.sorted, hs.grows, hs.frame, hs.noZero, hs.ep, ?_, ?_, fun _ => .inl hep, ?_⟩
  · intro hzero
    have hnone := hs.noZero
    rw [← hzero, hlook] at hnone
    cases hnone
  · intro _ htaken
    have hsame := hs.frame nid htaken
    rw [hlook] at hsame
    exact haway nid htaken r hsame.symm (hep.trans hs.ep)
  · intro _ r' hr'
    cases hlook.symm.trans hr'
    exact ⟨.refl _, .inl hep⟩

theorem Intact.resume (hr : Intact K x c) (haway : ∀ id, x.taken id → ∀ r, x.db.lookup id = some r → r.lastEp ≠ x.ep)
    {nid : Sha1} {r : PeerRecord} (hf : c.peers.fetchByEndpoint c.remoteEp = some (nid, r)) :
    Intact K x { c with remoteId := nid, record := r, bf := some r.bfKey, resumed := true } := by
  obtain ⟨hlook, hep⟩ := hr.sorted.lookup_fetchByEndpoint hf
  refine ⟨hr.toBalanced.resume haway hf, hr.dh, hr.storedRoom nid r hlook hep, hr.storedRoom, ?_, hr.keyed.resume hf⟩
  intro id hid
  refine ⟨(hr.fresh id hid).1, ?_⟩
  rintro ⟨-, rfl⟩
  cases hlook.symm.trans (hr.fresh nid hid).1

/-- A peer may authenticate here: no connection stands for it, or this one does. -/
def Admits (K : Crypto) (x : Call) (c : Conn) (id : Sha1) : Prop :=
  id ≠ zeroId K ∧ ¬ x.taken id ∧ (x.fresh id ∨ c.Holds K ∧ c.remoteId = id)

/-- The record of a peer that authenticates is new, or goes on with the one the connection has. -/
theorem Intact.authenticated (hr : Intact K x c) {id : Sha1} (ha : Admits K x c id) {r : PeerRecord}
    (hep : r.lastEp = c.remoteEp) (hle : c.record.account.Le r.account) (hc : c'.remoteId = id) (hrec : c'.record = r)
    (hpeers : c'.peers = c.peers) (hce : c'.remoteEp = c.remoteEp) : Balanced K x c' := by
  obtain ⟨hzero, hfree, hknown⟩ := ha
  refine ⟨hpeers ▸ hr.sorted, hpeers ▸ hr.grows, hpeers ▸ hr.frame, hpeers ▸ hr.noZero, hce.trans hr.ep, hc ▸ hzero,
    fun _ => hc ▸ hfree, fun _ => ?_, fun _ => ?_⟩
  · rw [hrec, hce]
    exact .inl hep
  · rw [hpeers, hc, hrec, hce]
    intro r' hr'
    rcases hknown with hfresh | ⟨hh, rfl⟩
    · cases (hr.fresh id hfresh).1.symm.trans hr'
    · obtain ⟨hle', hep'⟩ := hr.stored hh r' hr'
      exact ⟨hle'.trans hle, hep'⟩

end

/-! ### The handlers -/

/-- What the handlers below keep: a predicate that small changes and the storing of the peer's own record do not break. -/
structure Closed (K : Crypto) (P : Conn → Prop) : Prop where
  steps {c c' : Conn} : P c → Steps c c' → P c'
  store {c : Conn} : P c → c.Holds K → P { c with peers := c.peers.store c.remoteId c.record }

theorem Balanced.closed (K : Crypto) (x : Call) : Closed K (Balanced K x) where
  steps h hs := h.moves hs.toMoves
  store h hh := h.store hh

theorem Intact.closed (K : Crypto) (x : Call) : Closed K (Intact K x) where
  steps h hs := h.steps hs
  store h hh := h.store hh

abbrev Preserves {α : Type} (P : Conn → Prop) (m : Handler α) : Prop := Post P m (fun _ => P) fun _ => P

section
variable {K : Crypto} {P : Conn → Prop}

/-- With the id, and that the record is the one of this peer. -/
theorem Closed.holding (C : Closed K P) (nid : Sha1) : Closed K fun c => P c ∧ c.remoteId = nid ∧ c.Holds K where
  steps h hs := ⟨C.steps h.1 hs, hs.remoteId.trans h.2.1, hs.holds_iff.mpr h.2.2⟩
  store h hh := ⟨C.store h.1 hh, h.2⟩

theorem Closed.named (C : Closed K P) (nid : Sha1) : Closed K fun c => P c ∧ c.remoteId = nid where
  steps h hs := ⟨C.steps h.1 hs, hs.remoteId.trans h.2⟩
  store h hh := ⟨C.store h.1 hh, h.2⟩

def Stable (P : Conn → Prop) : Prop := ∀ ⦃c c' : Conn⦄, P c → Steps c c' → P c'

theorem Stable.modify (S : Stable P) {f : Conn → Conn} (hf : ∀ c, Steps c (f c)) : Preserves P (Eff.modify f) :=
  .modify fun c hc => S hc (hf c)

theorem Stable.external (S : Stable P) : Preserves P external := by
  refine .get_keep fun c hc => ?_
  split
  · exact .throw fun _ => id
  · exact S.modify fun _ => .of_books rfl
  · exact .pure fun _ => id

theorem Stable.gotoState (S : Stable P) (s : State) : Preserves P (gotoState s) :=
  S.modify fun _ => .of_books rfl

theorem Stable.sends (S : Stable P) (o : Outgoing) : Preserves P (do
    Connection.external
    Eff.modify fun c => { c with sent := c.sent ++ [o] }) :=
  .bind S.external fun _ => S.modify fun _ => .of_books rfl

theorem Stable.send (S : Stable P) (t : MessageType) (payload : Bytes) : Preserves P (send t payload) := by
  refine .get_keep fun c hc => .ite (fun _ => ?_) fun _ => .throw fun _ => id
  split
  · exact .throw fun _ => id
  · exact S.sends _

theorem Stable.sendAuthResponse (S : Stable P) (r : Bool) : Preserves P (sendAuthResponse r) :=
  .get_keep fun _ _ => S.send _ _

theorem Closed.stable (C : Closed K P) : Stable P := fun _ _ => C.steps

theorem Closed.modify (C : Closed K P) {f : Conn → Conn} (hf : ∀ c, Steps c (f c)) : Preserves P (Eff.modify f) :=
  C.stable.modify hf

theorem Closed.external (C : Closed K P) : Preserves P external := C.stable.external

theorem Closed.gotoState (C : Closed K P) (s : State) : Preserves P (gotoState s) := C.stable.gotoState s

theorem Closed.send (C : Closed K P) (t : MessageType) (payload : Bytes) : Preserves P (send t payload) :=
  C.stable.send t payload

theorem Closed.sendAuthResponse (C : Closed K P) (r : Bool) : Preserves P (sendAuthResponse r) :=
  C.stable.sendAuthResponse r

theorem Closed.sendDh (C : Closed K P) : Preserves P sendDh := by
  refine .get_keep fun c hc => ?_
  split
  · exact .throw fun _ => id
  · exact C.stable.sends _

theorem Closed.sendAuth (C : Closed K P) : Preserves P (sendAuth K) := by
  refine .get_keep fun c hc => ?_
  split
  · exact .throw fun _ => id
  · exact .ite (fun _ => C.send _ _) fun _ => .throw fun _ => id

theorem Closed.storeRecord (C : Closed K P) (nid : Sha1) :
    Preserves (fun c => P c ∧ c.remoteId = nid) (storeRecord K nid) := by
  refine .get_bind fun c hc => .ite (fun hkey => ?_) fun _ => .throw fun _ h => h ▸ hc
  refine .named (P := fun c => P c ∧ c.remoteId = nid ∧ c.Holds K) ?_ ⟨hc.1, hc.2, hkey.trans hc.2.symm⟩
  refine .bind ((C.holding nid).external.conseq (fun _ => id) (fun _ _ => id) fun _ _ h => ⟨h.1, h.2.1⟩) fun _ => ?_
  refine .modify fun t ht => ?_
  obtain ⟨hp, rfl, hh⟩ := ht
  exact ⟨C.store hp hh, rfl⟩

/-- A changed record, stored under the id of the peer. -/
theorem Closed.storeChanged (C : Closed K P) {f : Conn → PeerRecord} (hf : ∀ c, Steps c { c with record := f c }) (b : Bool)
    (nid : Sha1) : Post (fun c => P c ∧ c.remoteId = nid) (Eff.when b do
      Eff.modify fun c => { c with record := f c }
      Connection.storeRecord K nid) (fun _ => P) fun _ => P := by
  refine .when (fun _ => ?_) fun _ _ h => h.1
  refine Post.conseq (E := fun _ c => P c ∧ c.remoteId = nid)
    (.bind ((C.named nid).modify hf) fun _ => C.storeRecord nid) (fun _ => id) (fun _ _ h => h.1) fun _ _ h => h.1

theorem Closed.reset (C : Closed K P) : Preserves P (reset K) := by
  refine .get_bind fun c hc => .named (P := fun t => P t ∧ t.remoteId = c.remoteId) ?_ ⟨hc, rfl⟩
  refine .bind (C.storeChanged ?_ _ _) fun _ => ?_
  · exact fun _ => .of_books rfl
  · exact .bind C.external fun _ => .bind C.external fun _ => C.gotoState _

theorem Closed.close (C : Closed K P) : Preserves P (close K) :=
  .get_keep fun _ _ => .bind (.when (fun _ => C.send _ _) fun _ _ => id) fun _ => C.reset

theorem Closed.resendLookups (C : Closed K P) (ls : List (Sha1 × UInt32 × Option Sha1)) : Preserves P (resendLookups ls) := by
  induction ls with
  | nil => exact .pure fun _ => id
  | cons l rest ih => exact .bind (C.send _ _) fun _ => ih

theorem Closed.handleDataMsg (C : Closed K P) : Preserves P (handleDataMsg K) := by
  refine .get_keep fun _ _ => .ite (fun _ => ?_) fun _ => ?_
  · exact .bind C.external fun _ => .pure fun _ => id
  · exact .bind C.close fun _ => .pure fun _ => id

theorem Closed.handleAuthRespMsg (C : Closed K P) (first : UInt8) : Preserves P (handleAuthRespMsg K first) := by
  refine .ite (fun _ => ?_) fun _ => ?_
  · refine .bind (C.modify fun _ => .of_books rfl) fun _ => ?_
    exact .bind (C.gotoState _) fun _ => .pure fun _ => id
  · exact .bind C.reset fun _ => .pure fun _ => id

theorem Closed.handleUpdateRankMsg (C : Closed K P) (payload : Bytes) : Preserves P (handleUpdateRankMsg K payload) := by
  refine .ite (fun _ => .pure fun _ => id) fun _ => .get_bind fun c hc => ?_
  refine .bind (R := fun _ => P) ?_ fun _ => .pure fun _ => id
  refine .named (P := fun t => P t ∧ t.remoteId = c.remoteId) (.when (fun _ => ?_) fun _ _ h => h.1) ⟨hc, rfl⟩
  have C' := C.named c.remoteId
  refine Post.conseq (E := fun _ t => P t ∧ t.remoteId = c.remoteId)
    (.bind (C'.modify fun _ => .of_books rfl) fun _ =>
      .bind (C'.sendAuthResponse _) fun _ => C.storeRecord _) (fun _ => id) (fun _ _ h => h.1) fun _ _ h => h.1

theorem Closed.handleRouteMsg (C : Closed K P) (payload : Bytes) : Preserves P (handleRouteMsg K payload) := by
  rw [Connection.handleRouteMsg]
  split
  · exact .throw fun _ => id
  · refine .bind (C.modify fun _ => .of_books rfl) fun _ => .pure fun _ => id

end

section
variable {K : Crypto} {x : Call}

/-- How a message handler ends: what it returns `false` for is tried again. -/
def Handled (K : Crypto) (x : Call) (ok : Bool) (c : Conn) : Prop := Balanced K x c ∧ (ok = false → Intact K x c)

theorem handled_of_preserves {m : Handler Bool} (h : Preserves (Intact K x) m) :
    Post (Intact K x) m (Handled K x) fun _ => Balanced K x :=
  h.conseq (fun _ => id) (fun _ _ hc => ⟨hc.toBalanced, fun _ => hc⟩) fun _ _ hc => hc.toBalanced

theorem forgetPeer_intact : Preserves (Intact K x) (forgetPeer K) := by
  have C := Intact.closed K x
  refine .get_bind fun c hc => .named (P := fun t => Intact K x t ∧ t.remoteId = c.remoteId) ?_ ⟨hc, rfl⟩
  refine .bind (C.storeChanged ?_ _ _) fun _ => ?_
  · exact fun _ => ⟨⟨rfl, rfl, rfl, rfl, rfl, .inr rfl⟩, rfl, rfl, .inr ⟨rfl, rfl⟩⟩
  refine Post.bind (R := fun _ => Intact K x) ?_ ?_
  · exact .modify fun t ht => ht.blank t.remoteEp
  · exact fun _ => C.reset

theorem le_add_fee {a fee : UInt64} (hfee : fee.toNat ≤ maxFee) (hroom : a.toNat + maxFee < 2 ^ 64) : a ≤ a + fee := by
  rw [UInt64.le_iff_toNat_le, UInt64.toNat_add, Nat.mod_eq_of_lt (by omega)]
  omega

/-- A fee that the peer owes. -/
theorem Balanced.sentCredit {c : Conn} (h : Balanced K x c) (hroom : Room c.record.account) {fee : UInt64}
    (hfee : fee.toNat ≤ maxFee) :
    Balanced K x { c with record := { c.record with sentCredit := c.record.sentCredit + fee } } := by
  refine h.grown rfl rfl ?_
  exact ⟨le_add_fee hfee hroom.1, UInt64.le_refl _, UInt64.le_refl _, UInt64.le_refl _, fun _ => rfl⟩

/-- A fee that is owed to the peer. -/
theorem Balanced.recvCredit {c : Conn} (h : Balanced K x c) (hroom : Room c.record.account) {fee : UInt64}
    (hfee : fee.toNat ≤ maxFee) :
    Balanced K x { c with record := { c.record with recvCredit := c.record.recvCredit + fee } } := by
  refine h.grown rfl rfl ?_
  exact ⟨UInt64.le_refl _, le_add_fee hfee hroom.2, UInt64.le_refl _, UInt64.le_refl _, fun _ => rfl⟩

theorem handleLookupMsg_handled (payload : Bytes) :
    Post (Intact K x) (handleLookupMsg K payload) (Handled K x) fun _ => Balanced K x := by
  refine .ite (fun _ => ?_) fun _ => .throw fun _ hc => hc.toBalanced
  have hfind : Post (Intact K x) external (fun _ => Intact K x) fun _ => Balanced K x :=
    (Intact.closed K x).external.conseq (fun _ => id) (fun _ _ => id) fun _ _ hc => hc.toBalanced
  refine .bind hfind fun _ => ?_
  refine .bind (R := fun _ => Balanced K x) (.modify fun c hc => hc.toBalanced.sentCredit hc.room (by decide)) fun _ => ?_
  refine .get_keep fun c _ => ?_
  split
  · exact .throw fun _ h => h
  · exact .bind ((Balanced.closed K x).send _ _) fun _ => .pure fun _ h => ⟨h, by simp⟩

/-- The two requests for a connection on behalf of others. -/
theorem chargedRequest_handled {fee : UInt64} (hfee : fee.toNat ≤ maxFee) :
    Post (Intact K x) (do
      external
      Eff.modify fun c => { c with record := { c.record with sentCredit := c.record.sentCredit + fee } }
      pure true) (Handled K x) fun _ => Balanced K x := by
  refine .bind ((Intact.closed K x).external.conseq (fun _ => id) (fun _ _ => id) fun _ _ h => h.toBalanced) fun _ => ?_
  refine .bind (R := fun _ => Balanced K x) (.modify fun c hc => hc.toBalanced.sentCredit hc.room hfee) fun _ => ?_
  exact .pure fun _ h => ⟨h, by simp⟩

/-- The signature of an auth message is good for the key exchange. -/
def Verifies (K : Crypto) (dh : Option Dh) (m : AuthMessage) : Prop :=
  ∃ d ∈ dh, d.sharedKey.length = 56 ∧ K.verify m.pubk (K.sha1 (d.sharedKey ++ leBytes 8 m.utc.toNat)) m.sig = true

private theorem authenticatedRecord_le (m : AuthMessage) (shared : Bytes) (c : Conn) :
    c.record.account.Le (authenticatedRecord K m shared c).account := by
  refine ⟨UInt64.le_refl _, UInt64.le_refl _, UInt64.le_refl _, UInt64.le_refl _, fun hne => ?_⟩
  exact if_neg hne

/-- `handle_auth_msg` for a peer that may authenticate here, if its signature is good. -/
theorem handleAuthMsg_handled (payload : Bytes) :
    Post (fun c => Intact K x c ∧ ∀ m, K.readAuth payload = some m → Verifies K x.dh m → Admits K x c (K.sha1 m.pubk))
      (handleAuthMsg K payload)
      (fun ok c => Handled K x ok c ∧ (ok = false → ∀ m, K.readAuth payload = some m → ¬ Verifies K x.dh m))
      fun _ => Balanced K x := by
  rw [handleAuthMsg]
  split
  · exact .throw fun _ hc => hc.1.toBalanced
  rename_i m hm
  refine .bind (R := fun _ c => Intact K x c ∧ (Verifies K x.dh m → Admits K x c (K.sha1 m.pubk))) (.modify fun c hc => ?_)
    fun _ => ?_
  · exact ⟨hc.1.steps (.of_books rfl), hc.2 m hm⟩
  refine .get_bind fun c hc => ?_
  obtain ⟨hr, hadm⟩ := hc
  split
  · exact .throw fun t ht => ht ▸ hr.toBalanced
  rename_i d hd
  refine .ite (fun _ => .throw fun t ht => ht ▸ hr.toBalanced) fun hlen => .ite (fun hv => ?_) fun hv => ?_
  · have hver : Verifies K x.dh m := ⟨d, hr.dh ▸ hd, not_not.mp hlen, hv⟩
    have C := (Balanced.closed K x).named (K.sha1 m.pubk)
    refine .bind (R := fun _ t => t = { c with
        behindNat := c.publicEp.ip ≠ c.remoteEp.ip, remoteId := K.sha1 m.pubk, verified := some (d.sharedKey, m) })
      (.modify fun t ht => ht ▸ rfl) fun _ => ?_
    refine .bind (R := fun _ t => Balanced K x t ∧ t.remoteId = K.sha1 m.pubk) (.modify fun t ht => ?_) fun _ => ?_
    · subst ht
      exact ⟨hr.authenticated (hadm hver) rfl (authenticatedRecord_le m d.sharedKey c) rfl rfl rfl rfl, rfl⟩
    refine Post.conseq (E := fun _ t => Balanced K x t ∧ t.remoteId = K.sha1 m.pubk)
      (Q := fun ok t => ok = true ∧ Balanced K x t) ?_ (fun _ => id) ?_ fun _ _ h => h.1
    · refine .bind (C.sendAuthResponse _) fun _ => .bind (C.modify fun _ => .of_books rfl) fun _ => ?_
      refine .bind ((Balanced.closed K x).storeRecord _) fun _ => .bind C.external fun _ => ?_
      exact .bind (C.gotoState _) fun _ => .bind (C.resendLookups _) fun _ => .pure fun _ h => ⟨rfl, h.1⟩
    · rintro ok t ⟨rfl, ht⟩
      exact ⟨⟨ht, by simp⟩, by simp⟩
  · have C := Intact.closed K x
    have hno : ∀ m', K.readAuth payload = some m' → ¬ Verifies K x.dh m' := by
      rintro m' hm' ⟨d', hd', -, hv'⟩
      cases hm.symm.trans hm'
      cases (hr.dh ▸ hd).symm.trans hd'
      exact hv hv'
    refine Post.conseq (Q := fun ok t => ok = false ∧ Intact K x t) (E := fun _ => Intact K x)
      (.named (P := Intact K x) ?_ hr) (fun _ => id) ?_ fun _ _ h => h.toBalanced
    · exact .bind (C.sendAuthResponse _) fun _ => .bind (C.send _ _) fun _ => .pure fun _ h => ⟨rfl, h⟩
    · rintro ok t ⟨rfl, ht⟩
      exact ⟨⟨ht.toBalanced, fun _ => ht⟩, fun _ => hno⟩

end

end Connection
end Tornet
