import Tornet.Connection.Budget
import Tornet.Connection.Retry

/-! The stored records that a connection resumes, and who is behind a connected connection that finds none. -/
namespace Tornet.Connection
open Library Runs Eff

def Conn.Unlisted (c : Conn) : Prop := c.peers.fetchByEndpoint c.remoteEp = none

/-- The database once the connection's own record is unlinked from the endpoint. -/
def Conn.forgotten (c : Conn) : PeerDb :=
  if c.record.valid then c.peers.store c.remoteId (unlinkedRecord c.record) else c.peers

/-- A datagram finds no stored record that `handle_uninit` could resume: a connection that is connected may have stored
its own, which it unlinks first, and one in the key exchange has none that a reset would store for the endpoint. -/
def Conn.FindsNone (c : Conn) : Prop :=
  (c.curState = .uninit → c.Unlisted) ∧
  (c.curState = .receivedDh ∨ c.curState = .authenticated →
    c.Unlisted ∧ (c.record.valid = true → c.record.lastEp ≠ c.remoteEp)) ∧
  (c.curState = .connected → c.forgotten.fetchByEndpoint c.remoteEp = none)

instance (c : Conn) : Decidable c.Unlisted := inferInstanceAs (Decidable (_ = _))

instance (c : Conn) : Decidable c.FindsNone := inferInstanceAs (Decidable (_ ∧ _ ∧ _))

/-- Nothing is resumed, and nothing will be by a call of `handle_uninit`. -/
private def Resumeless (c : Conn) : Prop :=
  c.resumed = false ∧ c.Unlisted ∧ (c.record.valid = true → c.record.lastEp ≠ c.remoteEp)

/-- Nothing is resumed, and nothing will be once the own record is unlinked. -/
private def Owned (c : Conn) : Prop := c.resumed = false ∧ c.forgotten.fetchByEndpoint c.remoteEp = none

section
variable {K : Crypto} {P Q : Conn → Prop}

/-! ### What stays while a datagram is refused -/

/-- What only outside calls change is kept. -/
private theorem idle_keeps {α : Type} {m : Handler α} (h : Frame Conn.idle m) (hP : ∀ c, P c ↔ P c.idle) :
    Post P m (fun _ => P) fun _ _ => True :=
  (triple_iff_post.mp (h.triple P)).conseq (fun c hc => (hP c).mp hc) (fun _ c hc => (hP c).mpr hc) fun _ _ _ => trivial

private theorem store_leads (hP : ∀ c, P c ↔ P c.idle) {id : Sha1}
    (h : ∀ c, P c → Q { c with peers := c.peers.store id c.record }) :
    Post P (storeRecord K id) (fun _ => Q) fun _ _ => True :=
  .get_keep fun _ _ => .ite (fun _ => .bind (idle_keeps external_idle hP) fun _ => .modify h) fun _ => .throw fun _ _ => trivial

/-- A valid record is stored by `reset`. -/
private theorem reset_keeps (hP : ∀ c, P c ↔ P c.idle) (hgoto : ∀ c s, P c → P (c.inState s))
    (hdown : ∀ c, P c → P { c with record := { c.record with connected := false } })
    (hstore : ∀ c, c.record.valid = true → P c → P { c with peers := c.peers.store c.remoteId c.record }) :
    Post P (reset K) (fun _ => P) fun _ _ => True := by
  have hout : Post P external (fun _ => P) fun _ _ => True := idle_keeps external_idle hP
  refine .get_bind fun c hc => .bind (R := fun _ => P) (.when (fun hv => ?_) fun _ t ht => ht ▸ hc) fun _ =>
    .bind hout fun _ => .bind hout fun _ => .modify fun t ht => hgoto t _ ht
  refine .bind (R := fun _ t => P t ∧ t.record.valid = true ∧ t.remoteId = c.remoteId) (.modify fun t ht => ?_) fun _ => ?_
  · exact ⟨hdown t (ht ▸ hc), by rw [ht]; exact hv, by rw [ht]⟩
  · refine store_leads (P := fun t => P t ∧ t.record.valid = true ∧ t.remoteId = c.remoteId)
      (fun t => and_congr (hP t) Iff.rfl) fun t ht => ?_
    rw [← ht.2.2]
    exact hstore t ht.2.1 ht.1

private theorem Resumeless.kept : Kept K Resumeless where
  contact _ hc := hc
  publicEp _ hc := hc
  send t payload := idle_keeps (send_idle t payload) fun _ => Iff.rfl
  reset := by
    refine reset_keeps (fun _ => Iff.rfl) (fun _ _ hc => hc) (fun _ hc => hc) fun c hv hc => ⟨hc.1, ?_, hc.2.2⟩
    apply PeerDb.fetchByEndpoint_eq_none.mpr
    intro e he
    rcases PeerDb.mem_put he with rfl | he
    · exact hc.2.2 hv
    · exact PeerDb.fetchByEndpoint_eq_none.mp hc.2.1 e he

/-- Only the public key of the record counts. -/
private theorem Owned.record {c : Conn} (hc : Owned c) {r : PeerRecord} (hkey : r.publicKey = c.record.publicKey) :
    Owned { c with record := r } := by
  have hvalid : r.valid = c.record.valid := by rw [PeerRecord.valid, hkey, PeerRecord.valid]
  obtain ⟨hres, hnone⟩ := hc
  refine ⟨hres, ?_⟩
  show (if r.valid then c.peers.store c.remoteId (unlinkedRecord r) else c.peers).fetchByEndpoint c.remoteEp = none
  rw [Conn.forgotten] at hnone
  rw [hvalid]
  split_ifs at hnone ⊢
  · exact PeerDb.fetchByEndpoint_store (r := unlinkedRecord c.record) rfl hnone
  · exact hnone

private theorem Owned.kept : Kept K Owned where
  contact now hc := hc.record rfl
  publicEp _ hc := hc
  send t payload := idle_keeps (send_idle t payload) fun _ => Iff.rfl
  reset := by
    refine reset_keeps (fun _ => Iff.rfl) (fun _ _ hc => hc) (fun _ hc => hc.record rfl) fun c hv hc => ⟨hc.1, ?_⟩
    have hown : (c.peers.store c.remoteId (unlinkedRecord c.record)).fetchByEndpoint c.remoteEp = none := by
      have h := hc.2
      rwa [Conn.forgotten, if_pos hv] at h
    show (Conn.forgotten { c with peers := c.peers.store c.remoteId c.record }).fetchByEndpoint c.remoteEp = none
    rw [Conn.forgotten, if_pos hv, PeerDb.store_store]
    exact hown

/-- The own record is unlinked, and the connection has none any more. -/
private theorem Owned.forgetPeer : Post Owned (forgetPeer K) (fun _ => Resumeless) fun _ _ => True := by
  refine .get_bind fun c hc => ?_
  refine .bind (R := fun _ t => t.resumed = false ∧ t.Unlisted) (.when (fun hv => ?_) fun hv t ht => ?_) fun _ => ?_
  · have hown := hc.2
    rw [Conn.forgotten, if_pos hv] at hown
    refine .bind (R := fun _ t => t.idle = { c.idle with record := unlinkedRecord c.record }) (.modify fun t ht => ht ▸ rfl)
      fun _ => store_leads (fun _ => Iff.rfl) fun t ht => ?_
    obtain ⟨hres, hpeers, hep, hrec⟩ : t.resumed = c.resumed ∧ t.peers = c.peers ∧ t.remoteEp = c.remoteEp ∧
        t.record = unlinkedRecord c.record :=
      ⟨(congrArg Conn.resumed ht :), (congrArg Conn.peers ht :), (congrArg Conn.remoteEp ht :), (congrArg Conn.record ht :)⟩
    refine ⟨hres.trans hc.1, ?_⟩
    show (t.peers.store c.remoteId t.record).fetchByEndpoint t.remoteEp = none
    rw [hpeers, hep, hrec]
    exact hown
  · obtain ⟨hres, hown⟩ := hc
    rw [Conn.forgotten, hv, if_neg Bool.false_ne_true] at hown
    rw [ht]
    exact ⟨hres, hown⟩
  · refine Post.bind (R := fun _ => Resumeless) ?_ ?_
    · apply Post.modify
      intro t ht
      exact ⟨ht.1, ht.2, fun hv => absurd ((valid_blank t.remoteEp).symm.trans hv) Bool.false_ne_true⟩
    · exact fun _ => Resumeless.kept.reset

/-! ### No datagram resumes a record -/

/-- `handle_uninit` starts an exchange. -/
private theorem Resumeless.handleUninit {c : Conn} (hc : Resumeless c) (fuel : Nat) (b : Bytes) :
    ((handleUninit K fuel b).final c).resumed = false := by
  cases fuel with
  | zero => exact hc.1
  | succ fuel =>
    rw [Eff.final, handleUninit_new K fuel b hc.2.1]
    exact (startDh_onward b c).resumed.trans hc.1

/-- A datagram that is refused gets to `handle_uninit` where nothing is stored for the endpoint. -/
private theorem retry_unresumed {m : Handler (Bool × Bytes)} {tidy : Handler Unit} (hm : Along Onward m)
    (htidy : Along Onward tidy) (hfalse : Post P m (fun r c => r.1 = false → P c) fun _ _ => True)
    (hready : Post P tidy (fun _ => Resumeless) fun _ _ => True) {c : Conn} (hc : P c) (hres : c.resumed = false) (fuel : Nat) :
    ((retry K fuel m tidy).final c).resumed = false := by
  have hmc := hm c
  have hPc := hfalse c hc
  rw [Eff.final] at hmc ⊢
  rcases h : m c with ⟨e | ⟨ok, d⟩, t⟩ <;> rw [h] at hmc hPc
  · rw [retry, bind_error h]
    exact hmc.resumed.trans hres
  · have htres : t.resumed = false := hmc.resumed.trans hres
    rw [retry, bind_ok h]
    cases ok with
    | true => exact htres
    | false =>
      have htc := htidy t
      have hRt := hready t (hPc rfl)
      rw [Eff.final] at htc
      rcases hu : tidy t with ⟨e | v, u⟩ <;> rw [hu] at htc hRt
      · show ((tidy >>= fun _ => Connection.handleUninit K fuel d) t).2.resumed = false
        rw [bind_error hu]
        exact htc.resumed.trans htres
      · show ((tidy >>= fun _ => Connection.handleUninit K fuel d) t).2.resumed = false
        rw [bind_ok hu]
        exact hRt.handleUninit fuel d

private theorem handlePacket_unresumed {c : Conn} (hres : c.resumed = false) (hnone : c.FindsNone) (fuel : Nat) (b : Bytes) :
    ((handlePacket K fuel b).final c).resumed = false := by
  obtain ⟨huninit, hexchange, hconn⟩ := hnone
  show (handlePacket K fuel b c).2.resumed = false
  rw [handlePacket, get_bind_apply]
  cases hs : c.curState with
  | failed => exact hres
  | uninit =>
    cases fuel with
    | zero => exact hres
    | succ fuel =>
      show (Connection.handleUninit K (fuel + 1) b c).2.resumed = false
      rw [handleUninit_new K fuel b (huninit hs)]
      exact (startDh_onward b c).resumed.trans hres
  | generatedDh => exact (handleGeneratedDh_onward b c).resumed.trans hres
  | receivedDh =>
    have hready : Resumeless c := ⟨hres, hexchange (.inl hs)⟩
    show (handleReceivedDh K fuel b c).2.resumed = false
    rw [handleReceivedDh]
    split_ifs with hdh hmod
    · exact (exchangeAgain_onward b c).resumed.trans hres
    · exact retry_unresumed (decodePacket_onward b) (gotoState_onward .uninit) (decodePacket_false Resumeless.kept b)
        (.modify fun _ h => h) hready hres fuel
    · exact hres
  | authenticated =>
    have hready : Resumeless c := ⟨hres, hexchange (.inr hs)⟩
    show (handleAuthenticated K fuel b c).2.resumed = false
    rw [handleAuthenticated]
    split_ifs with hmod hlen
    · exact retry_unresumed (decodePacket_onward b) reset_onward (decodePacket_false Resumeless.kept b) Resumeless.kept.reset hready hres
        fuel
    · exact retry_unresumed (m := pure (false, b)) (.pure _) reset_onward (.pure fun _ h _ => h) Resumeless.kept.reset hready hres fuel
    · exact hres
  | connected =>
    have howned : Owned c := ⟨hres, hconn hs⟩
    show (handleConnected K fuel b c).2.resumed = false
    cases fuel with
    | zero => exact hres
    | succ fuel =>
      rw [handleConnected_eq]
      exact retry_unresumed (tryDecode_onward b) forgetPeer_onward (tryDecode_false Owned.kept b) Owned.forgetPeer howned hres
        fuel

end

/-- The guard of a run: no datagram finds a stored record to resume. -/
def NewGuard (c : Conn) : Event → Prop
  | .packet _ _ => c.FindsNone
  | .advance _ | .close _ => True

instance (c : Conn) : (e : Event) → Decidable (NewGuard c e)
  | .packet _ _ => inferInstanceAs (Decidable c.FindsNone)
  | .advance _ | .close _ => isTrue trivial

theorem step_unresumed {K : Crypto} {fuel : Nat} {c t : Conn} {e : Event} (hc : c.resumed = false) (hg : NewGuard c e)
    (h : step K fuel c e = some t) : t.resumed = false := by
  rw [step_final h]
  cases e with
  | packet b env => exact handlePacket_unresumed (c := { c with env := env }) hc hg fuel b
  | advance env => exact (advance_unresumed { c with env := env }).resumed.trans hc
  | close env => exact (close_onward { c with env := env }).resumed.trans hc

/-- In a run of a new connection in which no accepted auth response comes before the signature, and no datagram finds a
stored record of the endpoint to resume, connected means that a signature over the current shared key was verified since
the state was last `uninit`, with the key whose hash is the remote id. -/
theorem connected_authentic (K : Crypto) (fuel : Nat) (ep : Endpoint) (db : PeerDb) (es : List Event) (c : Conn)
    (hg : Guarded (step K fuel) (fun c e => RespGuard K c e ∧ NewGuard c e) (.init ep db) es)
    (hr : run (step K fuel) (.init ep db) es = some c) (hst : c.curState = .connected) : Authentic K c.core := by
  have hinit : Sound K (Conn.init ep db).core ∧ (Conn.init ep db).resumed = false :=
    ⟨Apart.sound (.inr (by simp [Conn.init, Conn.core])), rfl⟩
  obtain ⟨hsound, hres⟩ := invariant_of_guarded (fun c => Sound K c.core ∧ c.resumed = false)
    (fun s e t hs hok ht => ⟨step_sound hs.1 hok.1 ht, step_unresumed hs.2 hok.2 ht⟩) hinit hg hr
  rcases hsound with hresumed | hauth
  · exact absurd (hres.symm.trans hresumed) Bool.false_ne_true
  · exact hauth hst

/-- After the handshake the peer sends data; its own record is in the database then. -/
def dataRun : List Event := signedRun ++ [.packet (xorFrame sharedKey 0 [7, 0, 9, 0]) {}]

theorem connected_authentic_signed : ∃ c, run (step xorCrypto 2) (.init peerEp ⟨0, []⟩) dataRun = some c ∧
    c.curState = .connected ∧ c.peers.fetchByEndpoint peerEp ≠ none ∧ Authentic xorCrypto c.core := by
  have hrun : ∃ c, c ∈ run (step xorCrypto 2) (.init peerEp ⟨0, []⟩) dataRun ∧
      c.curState = .connected ∧ c.peers.fetchByEndpoint peerEp ≠ none := by decide +kernel
  obtain ⟨c, hc, hst, hown⟩ := hrun
  exact ⟨c, hc, hst, hown, connected_authentic xorCrypto 2 peerEp ⟨0, []⟩ dataRun c (by decide +kernel) hc hst⟩

/-- The exchange, and then an auth response instead of an auth message. -/
def unsignedRun : List Event :=
  [.packet peerDh { fresh := ownKey }, .packet (xorFrame sharedKey 2 [1, 0, 0, 0]) {}]

/-- `handle_auth_resp_msg` connects a peer that has signed nothing, and for which nothing is stored. -/
theorem connected_unsigned : ∃ c, run (step xorCrypto 2) (.init peerEp ⟨0, []⟩) unsignedRun = some c ∧
    Guarded (step xorCrypto 2) NewGuard (.init peerEp ⟨0, []⟩) unsignedRun ∧
    c.curState = .connected ∧ c.verified = none ∧ ¬ Authentic xorCrypto c.core := by
  have hrun : ∃ c, c ∈ run (step xorCrypto 2) (.init peerEp ⟨0, []⟩) unsignedRun ∧
      c.curState = .connected ∧ c.verified.isNone ∧ ¬ Authentic xorCrypto c.core := by
    decide +kernel
  obtain ⟨c, hc, hst, hnone, hauth⟩ := hrun
  exact ⟨c, hc, by decide +kernel, hst, Option.isNone_iff_eq_none.mp hnone, hauth⟩

end Tornet.Connection
