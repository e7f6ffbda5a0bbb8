import Mathlib.Logic.Function.Basic
import Tornet.Connection.Carry
import Tornet.Library.Runs

/-! The connections of one node: one for an endpoint, all over the same peer database. -/
namespace Tornet.Connection
open Library Runs Eff

/-- `connection::connection`: a record stored for the endpoint is resumed. -/
def construct (K : Crypto) : Handler Unit := do
  let c ← Eff.get
  match c.peers.fetchByEndpoint c.remoteEp with
  | some (nid, r) => do
    Eff.modify fun c => { c with remoteId := nid, record := r, bf := some r.bfKey, resumed := true }
    updateDistIndex
    gotoState .connected
    Eff.modify fun c => { c with record := { c.record with connected := true } }
    storeRecord K nid
  | none => pure ()

/-- `connection::~connection`. -/
def destruct (K : Crypto) : Handler Unit := do
  let c ← Eff.get
  Eff.when c.record.valid do
    Eff.modify fun c => { c with record := { c.record with connected := false } }
    storeRecord K c.remoteId

section
variable {K : Crypto} {P F : Conn → Prop} {q : Prop}

/-- The constructor leaves a new connection, or one that has resumed a record. -/
theorem construct_post (L : Lax P) (hF : ∀ c, P c → F c) (hconn : ∀ c, P c → P (c.inState .connected)) {c₀ : Conn}
    (hnew : F c₀) (hres : ∀ nid r, c₀.peers.fetchByEndpoint c₀.remoteEp = some (nid, r) →
      P { c₀ with remoteId := nid, record := r, bf := some r.bfKey, resumed := true }) :
    Post (fun c => c = c₀) (construct K) (fun _ => F) (Err q F) := by
  refine .get_bind fun c hc => ?_
  subst hc
  split
  · rename_i nid r hfetch
    refine .bind (R := fun _ t => P t ∧ t.remoteId = nid) (.modify fun t ht => ?_) fun _ => ?_
    · subst ht
      exact ⟨hres nid r hfetch, rfl⟩
    refine Post.conseq (Q := fun _ t => P t ∧ t.remoteId = nid) (E := Err q fun t => P t ∧ t.remoteId = nid) ?_
      (fun _ => id) (fun _ t ht => hF t ht.1) fun _ _ => Err.mono fun t ht => hF t ht.1
    refine .bind (external_keeps (L.at nid)) fun _ => ?_
    refine .bind (R := fun _ t => P t ∧ t.remoteId = nid) (gotoState_post fun t ht => ⟨hconn t ht.1, ht.2⟩) fun _ => ?_
    refine .bind (record_keeps (L.at nid) ?_) fun _ => storeRecord_keeps L nid
    exact fun _ => .inl rfl
  · exact .pure fun _ h => h ▸ hnew

theorem destruct_keeps (L : Lax P) : Keeps q P (destruct K) := by
  refine .get_bind fun c hc => .named (P := fun t => P t ∧ t.remoteId = c.remoteId) ?_ ⟨hc, rfl⟩
  refine storeChanged_keeps L ?_ _ _
  exact fun _ => .inl rfl

end

/-- `_ep_to_con` and `_peers` of the node. -/
structure Host where
  db : PeerDb
  conns : Endpoint → Option Conn

def Host.init (db : PeerDb) : Host := ⟨db, fun _ => none⟩

inductive HostEvent where
  | create (ep : Endpoint) (env : Env)
  | event (ep : Endpoint) (e : Event)
  | destroy (ep : Endpoint) (env : Env)
  deriving DecidableEq, Repr

namespace Host

/-- The connection of an endpoint, over the database as it is now. -/
def conn (h : Host) (ep : Endpoint) : Option Conn := (h.conns ep).map fun c => { c with peers := h.db }

/-- A connection as a call leaves it, with what it stored. -/
def put (h : Host) (ep : Endpoint) (c : Conn) : Host := ⟨c.peers, Function.update h.conns ep (some c)⟩

/-- The connection a datagram from a new endpoint, or `connect_to`, creates. -/
def created (K : Crypto) (h : Host) (ep : Endpoint) (env : Env) : Except Stop Unit × Conn :=
  construct K { Conn.init ep h.db with env := env }

/-- One call on one of the connections. An exception out of a constructor leaves no connection, one
out of a destructor ends the process. -/
def step (K : Crypto) (fuel : Nat) (h : Host) : HostEvent → Option Host
  | .create ep env =>
    match h.conn ep with
    | some _ => some h
    | none => match h.created K ep env with
      | (.ok _, c) => some (h.put ep c)
      | (.error .exception, c) => some { h with db := c.peers }
      | (.error _, _) => none
  | .event ep e =>
    match h.conn ep with
    | none => some h
    | some c => (Connection.step K fuel c e).map (h.put ep)
  | .destroy ep env =>
    match h.conn ep with
    | none => some h
    | some c => match destruct K { c with env := env } with
      | (.ok _, c) => some ⟨c.peers, Function.update h.conns ep none⟩
      | (.error _, _) => none

theorem conn_put_self (h : Host) (ep : Endpoint) (c : Conn) : (h.put ep c).conn ep = some c := by
  simp only [conn, put, Function.update_self]
  rfl

private theorem conn_db (h : Host) (ep : Endpoint) (db : PeerDb) :
    (Host.mk db h.conns).conn ep = (h.conn ep).map fun c => { c with peers := db } := by
  simp only [conn, Option.map_map]
  rfl

/-- Another connection stays as it is, over the new database. -/
theorem conn_update_ne (h : Host) {ep ep' : Endpoint} (hne : ep' ≠ ep) (db : PeerDb) (o : Option Conn) :
    (Host.mk db (Function.update h.conns ep o)).conn ep' = (h.conn ep').map fun c => { c with peers := db } := by
  simp only [conn, Function.update_of_ne hne, Option.map_map]
  rfl

/-- `F` holds of every connection, and `D` of the database. -/
def Inv (F : Conn → Prop) (D : PeerDb → Prop) (h : Host) : Prop :=
  D h.db ∧ ∀ ep c, h.conn ep = some c → F c

/-- No handler of the call uses a key pair, a shared key or a cipher that is not there. -/
def Quiet (K : Crypto) (fuel : Nat) (h : Host) : HostEvent → Prop
  | .create ep env => (h.created K ep env).1 ≠ .error .absent
  | .event ep e => ∀ c, h.conn ep = some c → (e.handler K fuel { c with env := e.env }).1 ≠ .error .absent
  | .destroy ep env => ∀ c, h.conn ep = some c → (Connection.destruct K { c with env := env }).1 ≠ .error .absent

/-- A property of the calls on a host, given for a connection. -/
def Each (ok : Conn → Event → Prop) (h : Host) : HostEvent → Prop
  | .event ep e => ∀ c, h.conn ep = some c → ok c e
  | .create _ _ | .destroy _ _ => True

/-- A stronger condition on the calls of a run. -/
theorem guarded_each_mono {K : Crypto} {fuel : Nat} {ok ok' : Conn → Event → Prop} (himp : ∀ c e, ok c e → ok' c e)
    {h : Host} {es : List HostEvent} (hg : Guarded (step K fuel) (Each ok) h es) :
    Guarded (step K fuel) (Each ok') h es := by
  refine guarded_of_invariant (fun _ => True) (fun _ _ _ _ _ _ => trivial) (fun h e _ hok => ?_) trivial hg
  cases e with
  | create ep env => trivial
  | event ep e => exact fun c hc => himp c e (hok c hc)
  | destroy ep env => trivial

instance (ok : Conn → Event → Prop) [∀ c e, Decidable (ok c e)] (h : Host) : (e : HostEvent) → Decidable (h.Each ok e)
  | .event ep e => inferInstanceAs (Decidable (∀ c ∈ h.conn ep, ok c e))
  | .create _ _ | .destroy _ _ => isTrue trivial

instance (K : Crypto) (fuel : Nat) (h : Host) : (e : HostEvent) → Decidable (h.Quiet K fuel e)
  | .create _ _ => inferInstanceAs (Decidable (_ ≠ _))
  | .event ep e =>
    inferInstanceAs (Decidable (∀ c ∈ h.conn ep, (e.handler K fuel { c with env := e.env }).1 ≠ .error .absent))
  | .destroy ep env =>
    inferInstanceAs (Decidable (∀ c ∈ h.conn ep, (destruct K { c with env := env }).1 ≠ .error .absent))

end Host

/-- What a predicate of connections takes to hold of all of them at any time: it is not about the
environment, needs no more than `D` of the database, and every call keeps it. -/
structure Hosted (K : Crypto) (fuel : Nat) (q : Prop) (F : Conn → Prop) (D : PeerDb → Prop)
    (ok : Conn → Event → Prop) : Prop where
  db {c : Conn} : F c → D c.peers
  swap {c : Conn} (db : PeerDb) (env : Env) : F c → D db → F { c with peers := db, env := env }
  construct (ep : Endpoint) (db : PeerDb) (env : Env) : D db →
    Post (fun c => c = { Conn.init ep db with env := env }) (construct K) (fun _ => F) (Err q F)
  handle (c : Conn) (e : Event) : F c → ok c e →
    Post (fun t => t = { c with env := e.env }) (e.handler K fuel) (fun _ => F) (Err q F)
  destruct : Post F (destruct K) (fun _ => F) (Err q F)

namespace Hosted
variable {K : Crypto} {fuel : Nat} {q : Prop} {F : Conn → Prop} {D : PeerDb → Prop} {ok : Conn → Event → Prop}

/-- A call that returns or throws leaves the predicate. -/
theorem stepped (H : Hosted K fuel q F D ok) {c c' : Conn} {e : Event} (hc : F c) (hok : ok c e)
    (hs : Connection.step K fuel c e = some c') : F c' := by
  have hpost := H.handle c e hc hok _ rfl
  unfold Connection.step at hs
  split at hs <;> simp only [Option.some.injEq, reduceCtorEq] at hs <;> rename_i heq <;> rw [heq] at hpost <;> subst hs
  · exact hpost.1 rfl
  · exact hpost

/-- The other connections see the database change. -/
theorem others (H : Hosted K fuel q F D ok) {h : Host} (hinv : h.Inv F D) {db : PeerDb} (hdb : D db) {ep : Endpoint}
    {c : Conn} (hc : (h.conn ep).map (fun c => { c with peers := db }) = some c) : F c := by
  obtain ⟨c₁, hc₁, rfl⟩ := Option.map_eq_some_iff.mp hc
  exact H.swap db c₁.env (hinv.2 ep c₁ hc₁) hdb

theorem put (H : Hosted K fuel q F D ok) {h : Host} {ep : Endpoint} {c : Conn} (hc : F c) (hinv : h.Inv F D) :
    (h.put ep c).Inv F D := by
  refine ⟨H.db hc, fun ep' c' hc' => ?_⟩
  by_cases hep : ep' = ep
  · subst hep
    rw [Host.conn_put_self] at hc'
    exact Option.some.inj hc' ▸ hc
  · exact H.others hinv (H.db hc) ((h.conn_update_ne hep _ _).symm.trans hc')

theorem step (H : Hosted K fuel q F D ok) {h h' : Host} {e : HostEvent} (hinv : h.Inv F D) (hok : h.Each ok e)
    (hs : h.step K fuel e = some h') : h'.Inv F D := by
  cases e with
  | create ep env =>
    have hpost := H.construct ep h.db env hinv.1 _ rfl
    simp only [Host.step, Host.created] at hs
    split at hs
    · exact Option.some.inj hs ▸ hinv
    split at hs <;> rename_i heq <;> simp only [Option.some.injEq, reduceCtorEq] at hs <;> rw [heq] at hpost <;>
      subst hs
    · exact H.put hpost hinv
    · have hdb := H.db (hpost.1 rfl)
      exact ⟨hdb, fun ep' c' hc' => H.others hinv hdb ((h.conn_db ep' _).symm.trans hc')⟩
  | event ep e =>
    simp only [Host.step] at hs
    split at hs
    · exact Option.some.inj hs ▸ hinv
    rename_i c hconn
    obtain ⟨c', hc', rfl⟩ := Option.map_eq_some_iff.mp hs
    exact H.put (H.stepped (hinv.2 ep c hconn) (hok c hconn) hc') hinv
  | destroy ep env =>
    simp only [Host.step] at hs
    split at hs
    · exact Option.some.inj hs ▸ hinv
    rename_i c hconn
    have hc := hinv.2 ep c hconn
    have hpost := H.destruct _ (H.swap c.peers env hc (H.db hc))
    split at hs
    · rename_i heq
      rw [heq] at hpost
      cases hs
      refine ⟨H.db hpost, fun ep' c' hc' => ?_⟩
      by_cases hep : ep' = ep
      · subst hep
        simp [Host.conn] at hc'
      · exact H.others hinv (H.db hpost) ((h.conn_update_ne hep _ _).symm.trans hc')
    · cases hs

/-- Where it is of interest, nothing is absent in a call that is admitted. -/
theorem quiet (H : Hosted K fuel True F D ok) {h : Host} {e : HostEvent} (hinv : h.Inv F D) (hok : h.Each ok e) :
    h.Quiet K fuel e := by
  cases e with
  | create ep env => exact Err.quiet (H.construct ep h.db env hinv.1) rfl
  | event ep e => exact fun c hc => Err.quiet (H.handle c e (hinv.2 ep c hc) (hok c hc)) rfl
  | destroy ep env =>
    intro c hc
    have hF := hinv.2 ep c hc
    exact Err.quiet H.destruct (H.swap c.peers env hF (H.db hF))

/-- Before the first connection there is nothing to ask of one. -/
theorem init {db : PeerDb} (hdb : D db) : (Host.init db).Inv F D :=
  ⟨hdb, fun _ _ hc => absurd hc (by simp [Host.conn, Host.init])⟩

/-- What a run in which every call is admitted ends in. -/
theorem run (H : Hosted K fuel q F D ok) {h : Host} {db : PeerDb} {es : List HostEvent} (hdb : D db)
    (hg : Guarded (Host.step K fuel) (Host.Each ok) (.init db) es)
    (hr : Runs.run (Host.step K fuel) (.init db) es = some h) : h.Inv F D :=
  invariant_of_guarded (Host.Inv F D) (fun _ _ _ hinv hok hs => H.step hinv hok hs) (init hdb) hg hr

end Hosted
end Tornet.Connection
