import Tornet.Connection.Handlers
import Tornet.Library.Runs

/-! Who is behind a connected connection: every way into the state, and which of them
comes without a verified signature. -/
namespace Tornet.Connection
open Library Runs Eff

/-- The part of a connection that authentication is about. -/
structure Core where
  curState : State
  dh : Option Dh
  remoteId : Sha1
  verified : Option (Bytes × AuthMessage)
  resumed : Bool

def Conn.core (c : Conn) : Core := ⟨c.curState, c.dh, c.remoteId, c.verified, c.resumed⟩

/-- A signature over the current shared key was verified since the state was last `uninit`,
and the remote id is the hash of the key that signed. -/
def Authentic (K : Crypto) (k : Core) : Prop :=
  ∃ dh m, k.dh = some dh ∧ k.verified = some (dh.sharedKey, m) ∧
    K.verify m.pubk (K.sha1 (dh.sharedKey ++ leBytes 8 m.utc.toNat)) m.sig = true ∧
    k.remoteId = K.sha1 m.pubk

instance (K : Crypto) (k : Core) : Decidable (Authentic K k) :=
  match hd : k.dh, hv : k.verified with
  | some dh, some (key, m) =>
    decidable_of_iff (key = dh.sharedKey ∧
        K.verify m.pubk (K.sha1 (dh.sharedKey ++ leBytes 8 m.utc.toNat)) m.sig = true ∧
        k.remoteId = K.sha1 m.pubk) <| by
      simp only [Authentic, hd, hv, Option.some.injEq, Prod.mk.injEq]
      constructor
      · rintro ⟨rfl, h⟩
        exact ⟨dh, m, rfl, ⟨rfl, rfl⟩, h⟩
      · rintro ⟨dh', m', rfl, ⟨rfl, rfl⟩, h⟩
        exact ⟨rfl, h⟩
  | none, _ => isFalse fun ⟨_, _, h, _⟩ => nomatch hd.symm.trans h
  | some _, none => isFalse fun ⟨_, _, _, h, _⟩ => nomatch hv.symm.trans h

def Sound (K : Crypto) (k : Core) : Prop :=
  k.resumed = true ∨ (k.curState = .connected → Authentic K k)

/-- Authentic whatever the state, unless a stored record was resumed. -/
def Proven (K : Crypto) (k : Core) : Prop := k.resumed = true ∨ Authentic K k

def Apart (k : Core) : Prop := k.resumed = true ∨ k.curState ≠ .connected

variable {K : Crypto}

theorem Proven.sound {k : Core} (h : Proven K k) : Sound K k := h.imp_right fun ha _ => ha

theorem Apart.sound {k : Core} (h : Apart k) : Sound K k := h.imp_right fun hn hc => absurd hc hn

/-! ### Calls that leave the core alone -/

theorem core_record (c : Conn) (r : PeerRecord) : Conn.core { c with record := r } = c.core := rfl

/-- The core is among what sending and storing leave alone. -/
theorem core_frame {α : Type} {m : Handler α} (h : Frame Conn.rest m) : Frame Conn.core m :=
  h.map Conn.core fun _ => rfl

theorem external_frame : Frame Conn.core external := core_frame external_rest

theorem send_frame (t : MessageType) (payload : Bytes) : Frame Conn.core (send t payload) :=
  core_frame (send_rest t payload)

theorem sendAuthResponse_frame (r : Bool) : Frame Conn.core (sendAuthResponse r) := core_frame (sendAuthResponse_rest r)

theorem storeRecord_frame (K : Crypto) (id : Sha1) : Frame Conn.core (storeRecord K id) :=
  core_frame (storeRecord_rest K id)

theorem sendDh_frame : Frame Conn.core sendDh := core_frame sendDh_rest

theorem sendAuth_frame (K : Crypto) : Frame Conn.core (sendAuth K) := core_frame (sendAuth_rest K)

theorem resendLookups_frame (ls : List (Sha1 × UInt32 × Option Sha1)) :
    Frame Conn.core (resendLookups ls) := by
  induction ls with
  | nil => exact .pure _
  | cons l rest ih => exact .bind (send_frame _ _) fun _ => ih

theorem handleUpdateRankMsg_frame (K : Crypto) (payload : Bytes) :
    Frame Conn.core (handleUpdateRankMsg K payload) := by
  refine .ite (.pure _) (.get_bind fun c => .bind (.when ?_) fun _ => .pure _)
  exact .bind (.modify fun c => core_record c _) fun _ => .bind (sendAuthResponse_frame _)
    fun _ => storeRecord_frame K _

theorem handleLookupMsg_frame (K : Crypto) (payload : Bytes) :
    Frame Conn.core (handleLookupMsg K payload) := by
  refine .ite (.bind external_frame fun _ => .bind (.modify fun c => core_record c _) fun _ => ?_) (.throw _)
  refine .get_bind fun c => ?_
  split
  · exact .throw _
  · exact .bind (send_frame _ _) fun _ => .pure _

theorem handleRouteMsg_frame (K : Crypto) (payload : Bytes) : Frame Conn.core (handleRouteMsg K payload) := by
  rw [handleRouteMsg]
  split
  · exact .throw _
  · exact .bind (.modify fun _ => rfl) fun _ => .pure _

theorem handleRequestReverseConnectMsg_frame : Frame Conn.core handleRequestReverseConnectMsg :=
  .bind external_frame fun _ => .bind (.modify fun c => core_record c _) fun _ => .pure _

theorem handleRequestConnectMsg_frame : Frame Conn.core handleRequestConnectMsg :=
  .bind external_frame fun _ => .bind (.modify fun c => core_record c _) fun _ => .pure _

/-! ### Calls that change it -/

/-- A framed call in the middle of a handler. -/
theorem framed {α : Type} {m : Handler α} (h : Frame Conn.core m) {P Q : Core → Prop} (hpq : ∀ k, P k → Q k) :
    Triple (fun c => P c.core) m (fun _ c => P c.core) (fun c => Q c.core) :=
  (h.triple P).conseq (fun _ => id) (fun _ _ => id) fun _ => hpq _

theorem gotoState_apart {s : State} (hs : s ≠ .connected) {P : Conn → Prop} :
    Triple P (gotoState s) (fun _ c => Apart c.core) (fun c => Sound K c.core) :=
  .modify fun _ _ => .inr hs

private theorem gotoState_connected :
    Triple (fun c => Proven K c.core) (gotoState .connected) (fun _ c => Proven K c.core)
      (fun c => Sound K c.core) :=
  .modify fun _ h => h

/-- `reset` ends in `uninit`, or stops on the way with the state unchanged. -/
theorem reset_spec (K : Crypto) :
    Triple (fun c => Sound K c.core) (reset K) (fun _ c => Apart c.core) (fun c => Sound K c.core) := by
  refine .get_bind fun c hc => ?_
  refine .conseq (P := fun c => Sound K c.core) (Q := fun _ c => Apart c.core) ?_ (fun _ h => h ▸ hc)
    (fun _ _ => id) fun _ => id
  refine .bind (framed (.when (.bind (.modify fun c => core_record c _) fun _ => storeRecord_frame K _))
    fun _ => id) fun _ => ?_
  refine .bind (framed external_frame fun _ => id) fun _ => ?_
  exact .bind (framed external_frame fun _ => id) fun _ => gotoState_apart (s := .uninit) (by decide)

/-- Reading the state does not change what is known of it. -/
theorem get_keeps {α : Type} {P : Core → Prop} {f : Conn → Handler α} {Q : α → Conn → Prop} {E : Conn → Prop}
    (h : ∀ c, P c.core → Triple (fun t => P t.core) (f c) Q E) :
    Triple (fun c => P c.core) (Eff.get >>= f) Q E :=
  .get_bind fun c hc => (h c hc).conseq (fun _ ht => ht ▸ hc) (fun _ _ => id) fun _ => id

theorem close_spec (K : Crypto) :
    Triple (fun c => Sound K c.core) (close K) (fun _ c => Apart c.core) (fun c => Sound K c.core) :=
  get_keeps (P := Sound K) fun _ _ =>
    .bind (framed (.when (send_frame _ _)) fun _ => id) fun _ => reset_spec K

theorem handleDataMsg_spec (K : Crypto) :
    Triple (fun c => Sound K c.core) (handleDataMsg K) (fun _ c => Sound K c.core) (fun c => Sound K c.core) :=
  get_keeps (P := Sound K) fun _ _ => .ite
    (fun _ => .bind (framed external_frame fun _ => id) fun _ => .pure fun _ => id)
    (fun _ => .bind (close_spec K) fun _ => .pure fun _ h => h.sound)

theorem handleCloseMsg_spec (K : Crypto) :
    Triple (fun c => Sound K c.core) (handleCloseMsg K) (fun _ c => Sound K c.core) (fun c => Sound K c.core) :=
  .bind (reset_spec K) fun _ => .pure fun _ h => h.sound

/-- A message that authenticates proves what it sets; one that does not changes nothing. -/
theorem handleAuthMsg_spec (K : Crypto) (payload : Bytes) :
    Triple (fun c => Sound K c.core) (handleAuthMsg K payload) (fun _ c => Sound K c.core)
      (fun c => Sound K c.core) := by
  rw [handleAuthMsg]
  split
  · exact .throw fun _ => id
  rename_i m _
  refine .bind (R := fun _ c => Sound K c.core) (.modify fun _ => id) fun _ => .get_bind fun c hc => ?_
  split
  · exact .throw fun _ h => h ▸ hc
  rename_i dh hdh
  refine .ite (fun _ => .throw fun _ h => h ▸ hc) fun _ => .ite (fun hv => ?_) fun _ => ?_
  · -- from here on the signature stands for whatever state is entered
    refine .bind (R := fun _ c => Proven K c.core) (.modify fun t ht => ?_) fun _ => ?_
    · subst ht
      exact .inr ⟨dh, m, hdh, rfl, hv, rfl⟩
    have keep {m : Handler Unit} (h : Frame Conn.core m) :
        Triple (fun c => Proven K c.core) m (fun _ c => Proven K c.core) (fun c => Sound K c.core) :=
      framed h fun _ => Proven.sound
    refine .bind (keep (.modify fun c => core_record c _)) fun _ => ?_
    refine .bind (keep (sendAuthResponse_frame _)) fun _ => ?_
    refine .bind (keep (.modify fun c => core_record c _)) fun _ => ?_
    refine .bind (keep (storeRecord_frame K _)) fun _ => ?_
    refine .bind (keep external_frame) fun _ => ?_
    refine .bind gotoState_connected fun _ => ?_
    exact .bind (keep (resendLookups_frame _)) fun _ => .pure fun _ h => h.sound
  · refine .conseq (P := fun c => Sound K c.core) ?_ (fun _ h => h ▸ hc) (fun _ _ => id) fun _ => id
    refine .bind (framed (sendAuthResponse_frame _) fun _ => id) fun _ => ?_
    exact .bind (framed (send_frame _ _) fun _ => id) fun _ => .pure fun _ => id

/-- An auth response connects whatever came before; it is sound where there is nothing left
to prove. -/
theorem handleAuthRespMsg_spec (K : Crypto) {first : UInt8} :
    Triple (fun c => Sound K c.core ∧ (first ≠ 0 → c.core.curState = .connected ∨ Proven K c.core))
      (handleAuthRespMsg K first) (fun _ c => Sound K c.core) (fun c => Sound K c.core) := by
  refine .ite (fun hf => ?_) fun _ => ?_
  · refine .bind (R := fun _ c => Proven K c.core) (.modify fun c hc => ?_) fun _ => ?_
    · obtain ⟨hs, hp⟩ := hc
      rcases hp hf with hst | hp
      · exact hs.imp_right fun h => h hst
      · exact hp
    · exact .bind gotoState_connected fun _ => .pure fun _ h => h.sound
  · refine .conseq (P := fun c => Sound K c.core) ?_ (fun _ h => h.1) (fun _ _ => id) fun _ => id
    exact .bind (reset_spec K) fun _ => .pure fun _ h => h.sound

theorem dispatch_spec (K : Crypto) (t : MessageType) (payload : Bytes) (first : UInt8) :
    Triple (fun c => Sound K c.core ∧
        (t = .authResp → first ≠ 0 → c.core.curState = .connected ∨ Proven K c.core))
      (dispatch K t payload first) (fun _ c => Sound K c.core) (fun c => Sound K c.core) := by
  have sound {m : Handler Bool} {P : Conn → Prop}
      (h : Triple (fun c => Sound K c.core) m (fun _ c => Sound K c.core) (fun c => Sound K c.core)) :
      Triple (fun c => Sound K c.core ∧ P c) m (fun _ c => Sound K c.core) (fun c => Sound K c.core) :=
    h.conseq (fun _ hc => hc.1) (fun _ _ => id) fun _ => id
  cases t with
  | data => exact sound (handleDataMsg_spec K)
  | auth => exact sound (handleAuthMsg_spec K payload)
  | authResp =>
    exact (handleAuthRespMsg_spec K).conseq (fun _ hc => ⟨hc.1, hc.2 rfl⟩) (fun _ _ => id) fun _ => id
  | routeLookup => exact sound ((handleLookupMsg_frame K payload).triple (Sound K))
  | route => exact sound ((handleRouteMsg_frame K payload).triple (Sound K))
  | close => exact sound (handleCloseMsg_spec K)
  | updateRank => exact sound ((handleUpdateRankMsg_frame K payload).triple (Sound K))
  | reqReverseConnect => exact sound (handleRequestReverseConnectMsg_frame.triple (Sound K))
  | reqConnect => exact sound (handleRequestConnectMsg_frame.triple (Sound K))

/-- Under the current key the datagram is an auth response that says yes. -/
def SaysYes (K : Crypto) (c : Conn) (b : Bytes) : Prop :=
  ∃ key, c.bf = some key ∧ checksumOk K (K.decrypt key b) = true ∧
    typeOf (K.decrypt key b) = some .authResp ∧ (K.decrypt key b).getD 4 0 ≠ 0

instance (K : Crypto) (c : Conn) (b : Bytes) : Decidable (SaysYes K c b) :=
  inferInstanceAs (Decidable (∃ key, key ∈ c.bf ∧ checksumOk K (K.decrypt key b) = true ∧
    typeOf (K.decrypt key b) = some .authResp ∧ (K.decrypt key b).getD 4 0 ≠ 0))

theorem decodePacket_spec (K : Crypto) (b : Bytes) :
    Triple (fun c => Sound K c.core ∧ (SaysYes K c b → c.core.curState = .connected ∨ Proven K c.core))
      (decodePacket K b) (fun _ c => Sound K c.core) (fun c => Sound K c.core) := by
  refine .bind (R := fun _ c => Sound K c.core ∧
    (SaysYes K c b → c.core.curState = .connected ∨ Proven K c.core)) (.modify fun c => id) fun _ => ?_
  refine .get_bind fun c hc => ?_
  split
  · exact .throw fun _ h => h ▸ hc.1
  rename_i key hkey
  refine .ite (fun hsum => ?_) fun _ => .pure fun _ h => h ▸ hc.1
  refine .bind (handleFrame_triple (fun _ h => h ▸ hc.1) (fun _ h => h ▸ hc.1) fun t payload htype => ?_)
    fun _ => .pure fun _ => id
  refine (dispatch_spec K t payload _).conseq (fun s hs => ?_) (fun _ _ => id) fun _ => id
  subst hs
  exact ⟨hc.1, fun hresp hyes => hc.2 ⟨key, hkey, hsum, hresp ▸ htype, hyes⟩⟩

theorem tryDecode_spec (K : Crypto) (b : Bytes) :
    Triple (fun c => Sound K c.core ∧ (SaysYes K c b → c.core.curState = .connected ∨ Proven K c.core))
      (tryDecode K b) (fun _ c => Sound K c.core) (fun c => Sound K c.core) :=
  .ite (fun _ => decodePacket_spec K b) fun _ => .pure fun _ h => h.1

theorem apart_keeps {α : Type} {m : Handler α} (h : Frame Conn.core m) :
    Triple (fun c => Apart c.core) m (fun _ c => Apart c.core) (fun c => Sound K c.core) :=
  framed h fun _ => Apart.sound

/-- A new key pair or a new shared key takes away what was proven, apart from `connected`. -/
theorem processDh_spec (K : Crypto) (b : Bytes) :
    Triple (fun c => Apart c.core) (processDh K b) (fun _ c => Apart c.core) (fun c => Sound K c.core) := by
  refine .get_bind fun c hc => ?_
  split
  · exact .throw fun _ h => h ▸ hc.sound
  · exact .modify fun _ h => h ▸ hc

theorem answerDh_spec (K : Crypto) (b : Bytes) (s : State) (hs : s ≠ .connected) :
    Triple (fun c => Apart c.core) (do processDh K b; sendAuth K; gotoState s)
      (fun _ c => Sound K c.core) (fun c => Sound K c.core) := by
  refine .bind (processDh_spec K b) fun _ => .bind (apart_keeps (sendAuth_frame K)) fun _ => ?_
  exact (gotoState_apart hs).conseq (fun _ => id) (fun _ _ => Apart.sound) fun _ => id

theorem startDh_spec (K : Crypto) (b : Bytes) :
    Triple (fun c => Apart c.core) (startDh K b) (fun _ c => Sound K c.core) (fun c => Sound K c.core) := by
  refine .bind (R := fun _ c => Apart c.core) (.modify fun _ => id) fun _ => ?_
  refine .bind (apart_keeps sendDh_frame) fun _ => .ite (fun _ => ?_) fun _ => ?_
  · exact answerDh_spec K b .receivedDh (by decide)
  · exact (gotoState_apart (s := .generatedDh) (by decide)).conseq (fun _ => id) (fun _ _ => Apart.sound)
      fun _ => id

theorem forgetPeer_spec (K : Crypto) :
    Triple (fun c => Sound K c.core) (forgetPeer K) (fun _ c => Apart c.core) (fun c => Sound K c.core) := by
  refine get_keeps (P := Sound K) fun c _ => ?_
  refine .bind (framed (.when (.bind (.modify fun c => core_record c _) fun _ => storeRecord_frame K _))
    fun _ => id) fun _ => ?_
  refine Triple.bind (R := fun _ c => Sound K c.core) ?_ ?_
  · exact .modify fun c hc => (core_record c _).symm ▸ hc
  · exact fun _ => reset_spec K

/-- Once a record was resumed nothing is claimed any more. -/
theorem resumed_keeps {α : Type} {m : Handler α} (h : Frame Conn.core m) :
    Triple (fun c => c.core.resumed = true) m (fun _ c => c.core.resumed = true) (fun c => Sound K c.core) :=
  (h.triple fun k => k.resumed = true).conseq (fun _ => id) (fun _ _ => id) fun _ => .inl

theorem handleUninit_connected_spec (K : Crypto) (fuel : Nat) (b : Bytes) :
    Triple (fun c => Apart c.core) (handleUninit K fuel b) (fun _ c => Sound K c.core) (fun c => Sound K c.core) ∧
    Triple (fun c => Sound K c.core ∧ (SaysYes K c b → c.core.curState = .connected ∨ Proven K c.core))
      (handleConnected K fuel b) (fun _ c => Sound K c.core) (fun c => Sound K c.core) := by
  induction fuel generalizing b with
  | zero => exact ⟨.throw fun _ h => h.sound, .throw fun _ h => h.1⟩
  | succ fuel ih =>
    constructor
    · rw [handleUninit]
      refine .get_bind fun c hc => ?_
      split
      · rename_i nid r _
        refine .bind (R := fun _ c => c.core.resumed = true) (.modify fun _ _ => rfl) fun _ => ?_
        refine .bind (resumed_keeps external_frame) fun _ => ?_
        refine .bind (resumed_keeps (.modify fun c => core_record c _)) fun _ => ?_
        refine .bind (resumed_keeps (storeRecord_frame K nid)) fun _ => ?_
        refine .bind (R := fun _ c => c.core.resumed = true) (.modify fun _ h => h) fun _ => ?_
        exact (ih b).2.conseq (fun _ h => ⟨.inl h, fun _ => .inr (.inl h)⟩) (fun _ _ => id) fun _ => id
      · exact (startDh_spec K b).conseq (fun _ h => h ▸ hc) (fun _ _ => id) fun _ => id
    · rw [handleConnected]
      refine .bind (tryDecode_spec K b) fun r => ?_
      split_ifs
      · exact .pure fun _ h => h
      · exact .bind (forgetPeer_spec K) fun _ => (ih r.2).1

theorem handleGeneratedDh_spec (K : Crypto) (b : Bytes) :
    Triple (fun c => Apart c.core) (handleGeneratedDh K b) (fun _ c => Sound K c.core)
      (fun c => Sound K c.core) := by
  refine .ite (fun _ => answerDh_spec K b .receivedDh (by decide)) fun _ => ?_
  exact (apart_keeps sendDh_frame).conseq (fun _ => id) (fun _ _ => Apart.sound) fun _ => id

/-- An auth response that says yes comes before a verified signature only in a state that
was connected anyway. -/
def RespProven (K : Crypto) (c : Conn) (b : Bytes) : Prop :=
  c.curState = .receivedDh ∨ c.curState = .authenticated → b.length % 8 = 0 → SaysYes K c b →
    Authentic K c.core

instance (K : Crypto) (c : Conn) (b : Bytes) : Decidable (RespProven K c b) :=
  inferInstanceAs (Decidable (_ → _ → _ → _))

/-- Decoding in a state that is not connected. -/
theorem decodePacket_apart (K : Crypto) {b : Bytes} {P : Conn → Prop}
    (h : ∀ c, P c → Apart c.core ∧ (SaysYes K c b → Authentic K c.core)) :
    Triple P (decodePacket K b) (fun _ c => Sound K c.core) (fun c => Sound K c.core) :=
  (decodePacket_spec K b).conseq (fun c hc => ⟨(h c hc).1.sound, fun hy => .inr (.inr ((h c hc).2 hy))⟩)
    (fun _ _ => id) fun _ => id

theorem handleReceivedDh_spec (K : Crypto) (fuel : Nat) (b : Bytes) :
    Triple (fun c => c.curState = .receivedDh ∧ RespProven K c b) (handleReceivedDh K fuel b)
      (fun _ c => Sound K c.core) (fun c => Sound K c.core) := by
  have apart {c : Conn} (h : c.curState = .receivedDh) : Apart c.core := by
    refine .inr fun hc => ?_
    exact absurd (h.symm.trans hc) (by decide)
  refine .ite (fun _ => ?_) fun _ => .ite (fun hb => ?_) fun _ => .pure fun _ h => (apart h.1).sound
  · refine .conseq (P := fun c => Apart c.core) (Q := fun _ c => Apart c.core) ?_ (fun _ h => apart h.1)
      (fun _ _ => Apart.sound) fun _ => id
    refine .bind (apart_keeps sendDh_frame) fun _ => .bind (processDh_spec K b) fun _ => ?_
    exact apart_keeps (sendAuth_frame K)
  · refine .bind (decodePacket_apart K fun c hc => ⟨apart hc.1, hc.2 (.inl hc.1) hb⟩) fun r => ?_
    refine .ite (fun _ => .pure fun _ => id) fun _ => ?_
    exact .bind (gotoState_apart (by decide)) fun _ => (handleUninit_connected_spec K fuel r.2).1

theorem handleAuthenticated_spec (K : Crypto) (fuel : Nat) (b : Bytes) :
    Triple (fun c => c.curState = .authenticated ∧ RespProven K c b) (handleAuthenticated K fuel b)
      (fun _ c => Sound K c.core) (fun c => Sound K c.core) := by
  have apart {c : Conn} (h : c.curState = .authenticated) : Apart c.core := by
    refine .inr fun hc => ?_
    exact absurd (h.symm.trans hc) (by decide)
  have restart (b : Bytes) : Triple (fun c => Sound K c.core) (do reset K; handleUninit K fuel b)
      (fun _ c => Sound K c.core) (fun c => Sound K c.core) :=
    .bind (reset_spec K) fun _ => (handleUninit_connected_spec K fuel b).1
  refine .ite (fun hb => ?_) fun _ => .ite (fun _ => ?_) fun _ => .pure fun _ h => (apart h.1).sound
  · refine .bind (decodePacket_apart K fun c hc => ⟨apart hc.1, hc.2 (.inr hc.1) hb⟩) fun r => ?_
    exact .ite (fun _ => .pure fun _ => id) fun _ => restart r.2
  · exact (restart b).conseq (fun _ h => (apart h.1).sound) (fun _ _ => id) fun _ => id

theorem handlePacket_spec (K : Crypto) (fuel : Nat) (b : Bytes) :
    Triple (fun c => Sound K c.core ∧ RespProven K c b) (handlePacket K fuel b)
      (fun _ c => Sound K c.core) (fun c => Sound K c.core) := by
  refine .get_bind fun c ⟨hc, hr⟩ => ?_
  have apart (h : c.curState ≠ .connected) : Apart c.core := .inr h
  split
  · exact .pure fun _ h => h ▸ hc
  · rename_i hs
    exact (handleUninit_connected_spec K fuel b).1.conseq
      (fun _ h => h ▸ apart (by rw [hs]; decide)) (fun _ _ => id) fun _ => id
  · rename_i hs
    exact (handleGeneratedDh_spec K b).conseq
      (fun _ h => h ▸ apart (by rw [hs]; decide)) (fun _ _ => id) fun _ => id
  · rename_i hs
    exact (handleReceivedDh_spec K fuel b).conseq (fun _ h => h ▸ ⟨hs, hr⟩) (fun _ _ => id) fun _ => id
  · rename_i hs
    exact (handleAuthenticated_spec K fuel b).conseq (fun _ h => h ▸ ⟨hs, hr⟩) (fun _ _ => id) fun _ => id
  · rename_i hs
    exact (handleUninit_connected_spec K fuel b).2.conseq (fun _ h => h ▸ ⟨hc, fun _ => .inl hs⟩)
      (fun _ _ => id) fun _ => id

theorem advance_spec (K : Crypto) :
    Triple (fun c => Sound K c.core) (advance K) (fun _ c => Sound K c.core) (fun c => Sound K c.core) := by
  have sound {m : Handler Unit} {c : Conn} (hc : Sound K c.core) (h : Frame Conn.core m) :
      Triple (fun t => t = c) m (fun _ c => Sound K c.core) (fun c => Sound K c.core) :=
    (h.triple (Sound K)).conseq (fun _ ht => ht ▸ hc) (fun _ _ => id) fun _ => id
  refine .bind (R := fun _ c => Sound K c.core) (.modify fun _ => id) fun _ => .get_bind fun c hc => ?_
  refine .ite (fun _ => ?_) fun _ => ?_
  · exact (gotoState_apart (s := .failed) (by decide)).conseq (fun _ => id) (fun _ _ => Apart.sound) fun _ => id
  split
  · exact sound hc (.pure _)
  · rename_i hs
    have hne : c.curState ≠ .connected := by
      rw [hs]
      decide
    refine .bind (R := fun _ c => Apart c.core) (.modify fun t ht => .inr (ht ▸ hne)) fun _ => ?_
    refine .bind (apart_keeps sendDh_frame) fun _ => ?_
    exact (gotoState_apart (s := .generatedDh) (by decide)).conseq (fun _ => id) (fun _ _ => Apart.sound)
      fun _ => id
  · exact sound hc sendDh_frame
  · exact sound hc (.bind sendDh_frame fun _ => sendAuth_frame K)
  · exact sound hc (sendAuthResponse_frame _)
  · exact sound hc (.modify fun _ => rfl)

/-- The guard of a run: a datagram that would be taken for an accepted auth response finds
the signature verified. -/
def RespGuard (K : Crypto) (c : Conn) : Event → Prop
  | .packet b _ => RespProven K c b
  | .advance _ | .close _ => True

instance (K : Crypto) (c : Conn) : (e : Event) → Decidable (RespGuard K c e)
  | .packet b _ => inferInstanceAs (Decidable (RespProven K c b))
  | .advance _ | .close _ => isTrue trivial

theorem step_sound {fuel : Nat} {c c' : Conn} {e : Event} (hc : Sound K c.core) (hg : RespGuard K c e)
    (hs : step K fuel c e = some c') : Sound K c'.core := by
  have hev : Triple (fun t => Sound K t.core ∧ RespGuard K t e) (e.handler K fuel) (fun _ c => Sound K c.core)
      (fun c => Sound K c.core) := by
    cases e with
    | packet b env => exact handlePacket_spec K fuel b
    | advance env => exact (advance_spec K).conseq (fun _ h => h.1) (fun _ _ => id) fun _ => id
    | close env => exact (close_spec K).conseq (fun _ h => h.1) (fun _ _ h => h.sound) fun _ => id
  have hpre : RespGuard K { c with env := e.env } e := by
    cases e <;> exact hg
  have hpost := hev { c with env := e.env } ⟨hc, hpre⟩
  unfold step at hs
  split at hs <;> simp only [Option.some.injEq, reduceCtorEq] at hs <;>
  · rename_i heq
    rw [heq] at hpost
    exact hs ▸ hpost

/-- A small cryptography to run the connection with: sums for hashes, a cipher and a key
exchange by exclusive or. -/
def xorCrypto : Crypto where
  sha1 b := BitVec.ofNat 160 (b.foldl (fun h x => h * 31 + x.toNat + 1) 7)
  superFastHash b := BitVec.ofNat 32 (b.foldl (fun h x => h * 17 + x.toNat + 1) 3)
  decrypt key b := b.map (· ^^^ key.headD 0)
  dhPublic priv := priv
  dhShared priv pub := priv.zipWith (· ^^^ ·) pub
  verify pubk digest sig := sig = sha1Bytes (digest ^^^ BitVec.ofNat 160 pubk.length)
  readAuth b := if b.length < 276 then none else
    some { sig := b.take 20, pubk := (b.drop 20).take 256, utc := 0, nonce := (0, 0), ep := {} }
  authPayload key utc := key.take 20 ++ leBytes 8 utc.toNat
  readsLookup _ := false
  readRoute _ := none

/-- The frame a peer sends, under the cipher of `xorCrypto`. -/
def xorFrame (key : Bytes) (type : Nat) (payload : Bytes) : Bytes :=
  xorCrypto.decrypt key
    ((leBytes 4 (xorCrypto.superFastHash payload).toNat).take 3 ++ [UInt8.ofNat (8 * type)] ++ payload)

/-- The peer's half of the exchange, longer than 56 bytes and no multiple of 8. -/
def peerDh : Bytes := List.replicate 57 1

def ownKey : Bytes := List.replicate 56 2

def sharedKey : Bytes := List.replicate 56 3

/-- An auth message with a good signature over the shared key. -/
def signedAuth : Bytes :=
  xorFrame sharedKey 1
    (sha1Bytes (xorCrypto.sha1 (sharedKey ++ leBytes 8 0) ^^^ BitVec.ofNat 160 256) ++ List.replicate 256 9)

def peerEp : Endpoint := { ip := 1, port := 2 }

def signedRun : List Event := [.packet peerDh { fresh := ownKey }, .advance {}, .packet signedAuth {}]

end Tornet.Connection
