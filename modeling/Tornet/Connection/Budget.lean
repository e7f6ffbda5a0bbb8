import Tornet.Connection.Authentication

/-! How many calls of `advance` a connection has before it fails: the counter it keeps, against the calls
made since it was last connected or last left `failed`. -/
namespace Tornet.Connection
open Library Runs Eff

/-! ### What no message touches -/

/-- The counter stays, and what was sent is not taken back. -/
structure Grown (c t : Conn) : Prop where
  count : t.advanceCount = c.advanceCount
  sent : c.sent <+: t.sent

/-- No stored record is resumed, and what was sent is not taken back. -/
structure Unresumed (c t : Conn) : Prop where
  sent : c.sent <+: t.sent
  resumed : t.resumed = c.resumed

structure Onward (c t : Conn) : Prop extends Grown c t, Unresumed c t

instance : IsPreorder Conn Grown where
  refl _ := ⟨rfl, List.prefix_rfl⟩
  trans _ _ _ h h' := ⟨h'.count.trans h.count, h.sent.trans h'.sent⟩

instance : IsPreorder Conn Unresumed where
  refl _ := ⟨List.prefix_rfl, rfl⟩
  trans _ _ _ h h' := ⟨h.sent.trans h'.sent, h'.resumed.trans h.resumed⟩

instance : IsPreorder Conn Onward where
  refl c := ⟨refl_of Grown c, rfl⟩
  trans _ _ _ h h' := ⟨trans_of Grown h.toGrown h'.toGrown, h'.resumed.trans h.resumed⟩

section
variable {K : Crypto}

/-- A change of anything else. -/
private theorem onward_modify {f : Conn → Conn}
    (hf : ∀ c, (f c).advanceCount = c.advanceCount ∧ (f c).sent = c.sent ∧ (f c).resumed = c.resumed) :
    Along Onward (Eff.modify f : Handler Unit) :=
  .modify fun c => ⟨⟨(hf c).1, (hf c).2.1 ▸ List.prefix_rfl⟩, (hf c).2.2⟩

private theorem external_onward : Along Onward external := by
  refine .get_bind fun c => ?_
  split
  · exact .throw _
  · exact onward_modify fun _ => ⟨rfl, rfl, rfl⟩
  · exact .pure _

/-- A packet is put at the end of what was sent. -/
private theorem append_onward (o : Outgoing) : Along Onward (do
    external
    Eff.modify fun c => { c with sent := c.sent ++ [o] } : Handler Unit) :=
  .bind external_onward fun _ => .modify fun _ => ⟨⟨rfl, List.prefix_append _ _⟩, rfl⟩

private theorem send_onward (t : MessageType) (payload : Bytes) : Along Onward (send t payload) := by
  refine .get_bind fun c => .ite ?_ (.throw _)
  split
  · exact .throw _
  · exact append_onward _

private theorem sendAuthResponse_onward (r : Bool) : Along Onward (sendAuthResponse r) :=
  .get_bind fun _ => send_onward _ _

private theorem sendDh_onward : Along Onward sendDh := by
  refine .get_bind fun c => ?_
  split
  · exact .throw _
  · exact append_onward _

private theorem sendAuth_onward : Along Onward (sendAuth K) := by
  refine .get_bind fun c => ?_
  split
  · exact .throw _
  · exact .ite (send_onward _ _) (.throw _)

private theorem storeRecord_onward (nid : Sha1) : Along Onward (storeRecord K nid) :=
  .get_bind fun _ => .ite (.bind external_onward fun _ => onward_modify fun _ => ⟨rfl, rfl, rfl⟩) (.throw _)

theorem gotoState_onward (s : State) : Along Onward (gotoState s) := onward_modify fun _ => ⟨rfl, rfl, rfl⟩

private theorem resendLookups_onward (ls : List (Sha1 × UInt32 × Option Sha1)) : Along Onward (resendLookups ls) := by
  induction ls with
  | nil => exact .pure _
  | cons l rest ih => exact .bind (send_onward _ _) fun _ => ih

private theorem storeChanged_onward (f : Conn → PeerRecord) (b : Bool) (nid : Sha1) :
    Along Onward (Eff.when b do
      Eff.modify fun c => { c with record := f c }
      storeRecord K nid) :=
  .when (.bind (onward_modify fun _ => ⟨rfl, rfl, rfl⟩) fun _ => storeRecord_onward nid)

theorem reset_onward : Along Onward (reset K) := by
  refine .get_bind fun c => .bind (storeChanged_onward _ _ _) fun _ => ?_
  exact .bind external_onward fun _ => .bind external_onward fun _ => gotoState_onward _

theorem close_onward : Along Onward (close K) :=
  .get_bind fun _ => .bind (.when (send_onward _ _)) fun _ => reset_onward

private theorem handleAuthMsg_onward (payload : Bytes) : Along Onward (handleAuthMsg K payload) := by
  rw [handleAuthMsg]
  split
  · exact .throw _
  refine .bind (onward_modify fun _ => ⟨rfl, rfl, rfl⟩) fun _ => .get_bind fun c => ?_
  split
  · exact .throw _
  refine .ite (.throw _) (.ite ?_ ?_)
  · refine .bind (onward_modify fun _ => ⟨rfl, rfl, rfl⟩) fun _ => ?_
    refine .bind (onward_modify fun _ => ⟨rfl, rfl, rfl⟩) fun _ => .bind (sendAuthResponse_onward _) fun _ => ?_
    refine .bind (onward_modify fun _ => ⟨rfl, rfl, rfl⟩) fun _ => .bind (storeRecord_onward _) fun _ => ?_
    refine .bind external_onward fun _ => .bind (gotoState_onward _) fun _ => ?_
    exact .bind (resendLookups_onward _) fun _ => .pure _
  · exact .bind (sendAuthResponse_onward _) fun _ => .bind (send_onward _ _) fun _ => .pure _

private theorem handleUpdateRankMsg_onward (payload : Bytes) : Along Onward (handleUpdateRankMsg K payload) := by
  refine .ite (.pure _) (.get_bind fun c => .bind (.when ?_) fun _ => .pure _)
  refine .bind (onward_modify fun _ => ⟨rfl, rfl, rfl⟩) fun _ => .bind (sendAuthResponse_onward _) fun _ => ?_
  exact storeRecord_onward _

private theorem handleLookupMsg_onward (payload : Bytes) : Along Onward (handleLookupMsg K payload) := by
  refine .ite (.bind external_onward fun _ => .bind (onward_modify fun _ => ⟨rfl, rfl, rfl⟩) fun _ => ?_) (.throw _)
  refine .get_bind fun c => ?_
  split
  · exact .throw _
  · exact .bind (send_onward _ _) fun _ => .pure _

private theorem dispatch_onward (t : MessageType) (payload : Bytes) (first : UInt8) :
    Along Onward (dispatch K t payload first) := by
  have external_then (f : Conn → Conn)
      (hf : ∀ c, (f c).advanceCount = c.advanceCount ∧ (f c).sent = c.sent ∧ (f c).resumed = c.resumed) :
      Along Onward (do external; Eff.modify f; pure true : Handler Bool) :=
    .bind external_onward fun _ => .bind (onward_modify hf) fun _ => .pure _
  cases t with
  | data =>
    refine .get_bind fun c => .ite (.bind external_onward fun _ => .pure _) ?_
    exact .bind close_onward fun _ => .pure _
  | auth => exact handleAuthMsg_onward payload
  | authResp =>
    refine .ite (.bind (onward_modify fun _ => ⟨rfl, rfl, rfl⟩) fun _ => .bind (gotoState_onward _) fun _ => .pure _) ?_
    exact .bind reset_onward fun _ => .pure _
  | routeLookup => exact handleLookupMsg_onward payload
  | route =>
    rw [dispatch, handleRouteMsg]
    split
    · exact .throw _
    · exact .bind (onward_modify fun _ => ⟨rfl, rfl, rfl⟩) fun _ => .pure _
  | close => exact .bind reset_onward fun _ => .pure _
  | updateRank => exact handleUpdateRankMsg_onward payload
  | reqReverseConnect => exact external_then _ fun _ => ⟨rfl, rfl, rfl⟩
  | reqConnect => exact external_then _ fun _ => ⟨rfl, rfl, rfl⟩

theorem decodePacket_onward (b : Bytes) : Along Onward (decodePacket K b) := by
  refine .bind (onward_modify fun _ => ⟨rfl, rfl, rfl⟩) fun _ => .get_bind fun c => ?_
  split
  · exact .throw _
  refine .ite (.bind ?_ fun _ => .pure _) (.pure _)
  rw [handleFrame]
  split
  · exact .pure _
  · split
    · exact .throw _
    · exact dispatch_onward _ _ _

theorem tryDecode_onward (b : Bytes) : Along Onward (tryDecode K b) := .ite (decodePacket_onward b) (.pure _)

private theorem processDh_onward (b : Bytes) : Along Onward (processDh K b) := by
  refine .get_bind fun c => ?_
  split
  · exact .throw _
  · exact onward_modify fun _ => ⟨rfl, rfl, rfl⟩

private theorem generateDh_onward : Along Onward (generateDh K) := onward_modify fun _ => ⟨rfl, rfl, rfl⟩

/-- Both answers to a packet of the key exchange. -/
private theorem exchange_onward (b : Bytes) (s : State) : Along Onward (do processDh K b; sendAuth K; gotoState s) :=
  .bind (processDh_onward b) fun _ => .bind sendAuth_onward fun _ => gotoState_onward s

theorem startDh_onward (b : Bytes) : Along Onward (startDh K b) :=
  .bind generateDh_onward fun _ => .bind sendDh_onward fun _ => .ite (exchange_onward b _) (gotoState_onward _)

theorem forgetPeer_onward : Along Onward (forgetPeer K) :=
  .get_bind fun _ => .bind (storeChanged_onward _ _ _) fun _ =>
    .bind (onward_modify fun _ => ⟨rfl, rfl, rfl⟩) fun _ => reset_onward

theorem handleGeneratedDh_onward (b : Bytes) : Along Onward (handleGeneratedDh K b) :=
  .ite (exchange_onward b _) sendDh_onward

/-- The answer to a second packet of the key exchange. -/
theorem exchangeAgain_onward (b : Bytes) : Along Onward (do sendDh; processDh K b; sendAuth K) :=
  .bind sendDh_onward fun _ => .bind (processDh_onward b) fun _ => sendAuth_onward

/-- `advance` counts, and then sends. -/
theorem advance_unresumed : Along Unresumed (advance K) := by
  have keeps {m : Handler Unit} (h : Along Onward m) : Along Unresumed m := h.mono fun _ _ h => h.toUnresumed
  refine .bind (.modify fun _ => ⟨List.prefix_rfl, rfl⟩) fun _ => .get_bind fun c => ?_
  refine .ite (keeps (gotoState_onward _)) ?_
  split
  · exact .pure _
  · exact keeps (.bind generateDh_onward fun _ => .bind sendDh_onward fun _ => gotoState_onward _)
  · exact keeps sendDh_onward
  · exact keeps (.bind sendDh_onward fun _ => sendAuth_onward)
  · exact keeps (sendAuthResponse_onward _)
  · exact .modify fun _ => ⟨List.prefix_rfl, rfl⟩

private theorem onward_grown {α : Type} {m : Handler α} (h : Along Onward m) : Along Grown m := h.mono fun _ _ h => h.toGrown

private theorem handleUninit_connected_grown (fuel : Nat) (b : Bytes) :
    Along Grown (handleUninit K fuel b) ∧ Along Grown (handleConnected K fuel b) := by
  induction fuel generalizing b with
  | zero => exact ⟨.throw _, .throw _⟩
  | succ fuel ih =>
    constructor
    · rw [handleUninit]
      refine .get_bind fun c => ?_
      split
      · refine .bind (.modify fun _ => ⟨rfl, List.prefix_rfl⟩) fun _ => .bind (onward_grown external_onward) fun _ => ?_
        refine .bind (.modify fun _ => ⟨rfl, List.prefix_rfl⟩) fun _ => ?_
        refine .bind (onward_grown (storeRecord_onward _)) fun _ => ?_
        exact .bind (onward_grown (gotoState_onward _)) fun _ => (ih b).2
      · exact onward_grown (startDh_onward b)
    · rw [handleConnected]
      refine .bind (onward_grown (tryDecode_onward b)) fun r => .ite (.pure _) ?_
      exact .bind (onward_grown forgetPeer_onward) fun _ => (ih r.2).1

/-- No datagram touches the counter. -/
theorem handlePacket_grown (fuel : Nat) (b : Bytes) : Along Grown (handlePacket K fuel b) := by
  have uninit (d : Bytes) := (handleUninit_connected_grown (K := K) fuel d).1
  have decode := onward_grown (decodePacket_onward (K := K) b)
  have reset_uninit (d : Bytes) : Along Grown (do reset K; handleUninit K fuel d) :=
    .bind (onward_grown reset_onward) fun _ => uninit d
  refine .get_bind fun c => ?_
  split
  · exact .pure _
  · exact uninit b
  · exact onward_grown (handleGeneratedDh_onward b)
  · refine .ite (onward_grown (exchangeAgain_onward b)) (.ite ?_ (.pure _))
    exact .bind decode fun r => .ite (.pure _) (.bind (onward_grown (gotoState_onward _)) fun _ => uninit r.2)
  · refine .ite ?_ (.ite (reset_uninit b) (.pure _))
    exact .bind decode fun r => .ite (.pure _) (reset_uninit r.2)
  · exact (handleUninit_connected_grown fuel b).2

end

/-! ### What `advance` does -/

/-- The states in which `advance` sends the packets of the key exchange. -/
def State.exchanging (s : State) : Bool := s ≠ .failed && s ≠ .connected

/-- What a call of `advance` leaves, also where it ends in an exception: at ten it fails the connection, and below
that it leaves `failed` and `connected` as they are, the latter with a new counter. -/
structure Advanced (c t : Conn) : Prop where
  spent : 10 ≤ (c.advanceCount + 1).toNat → t.curState = .failed
  failed : c.curState = .failed → t.curState = .failed
  connected : (c.advanceCount + 1).toNat < 10 → c.curState = .connected → t.curState = .connected
  exchanging : (c.advanceCount + 1).toNat < 10 → c.curState.exchanging → t.curState.exchanging
  count : t.curState ≠ .connected → t.advanceCount = c.advanceCount + 1

/-- State and counter are those of `u`. -/
def SameBudget (u t : Conn) : Prop := t.curState = u.curState ∧ t.advanceCount = u.advanceCount

theorem same_keeps {m : Handler Unit} (h : Frame Conn.rest m) (u : Conn) :
    Triple (SameBudget u) m (fun _ => SameBudget u) (SameBudget u) :=
  (h.triple (SameBudget u)).conseq (fun _ => id) (fun _ _ => id) fun _ => id

theorem advance_post (K : Crypto) (c : Conn) :
    Triple (fun t => t = c) (advance K) (fun _ => Advanced c) (Advanced c) := by
  obtain ⟨u, hu⟩ : ∃ u : Conn, u = { c with advanceCount := c.advanceCount + 1 } := ⟨_, rfl⟩
  have hstate : u.curState = c.curState := by rw [hu]
  have hcount : u.advanceCount = c.advanceCount + 1 := by rw [hu]
  -- below ten, a call that sends and stores only leaves the state it found
  have kept {t : Conn} (hlt : u.advanceCount.toNat < 10) (hne : u.curState ≠ .connected) (h : SameBudget u t) :
      Advanced c t := by
    refine ⟨fun hge => ?_, fun hf => ?_, fun _ hc => ?_, fun _ he => ?_, fun _ => h.2.trans hcount⟩
    · rw [hcount] at hlt
      omega
    · rw [h.1, hstate, hf]
    · exact absurd (hstate.trans hc) hne
    · rwa [h.1, hstate]
  refine .bind (R := fun _ t => t = u) (.modify fun t ht => by rw [hu, ht]) fun _ => .get_bind fun t ht => ?_
  subst ht
  refine .ite (fun hge => ?_) fun hlt => ?_
  · refine .modify fun s hs => ⟨fun _ => rfl, fun _ => rfl, fun hlt => ?_, fun hlt => ?_, fun _ => ?_⟩
    · rw [hcount] at hge
      omega
    · rw [hcount] at hge
      omega
    · rw [hs, ← hcount]
  have hlt10 : t.advanceCount.toNat < 10 := by omega
  have sends {m : Handler Unit} (h : Frame Conn.rest m) (hne : t.curState ≠ .connected) :
      Triple (fun s => s = t) m (fun _ => Advanced c) (Advanced c) :=
    (same_keeps h t).conseq (fun s hs => hs ▸ ⟨rfl, rfl⟩) (fun _ _ => kept hlt10 hne) fun _ => kept hlt10 hne
  split
  · rename_i hs
    exact sends (.pure _) (by rw [hs]; decide)
  · rename_i hs
    have hne : t.curState ≠ .connected := by
      rw [hs]
      decide
    refine .bind (R := fun _ => SameBudget t) (.modify fun s hs => hs ▸ ⟨rfl, rfl⟩) fun _ => ?_
    refine .bind ((same_keeps sendDh_rest t).conseq (fun _ => id) (fun _ _ => id) fun _ => kept hlt10 hne) fun _ => ?_
    refine .modify fun s hsame => ⟨fun hge => ?_, fun hf => ?_, fun _ hc => ?_, fun _ _ => rfl, fun _ => ?_⟩
    · rw [← hcount] at hge
      omega
    · exact absurd (hs.symm.trans (hstate.trans hf)) (by decide)
    · exact absurd (hs.symm.trans (hstate.trans hc)) (by decide)
    · exact hsame.2.trans hcount
  · rename_i hs
    exact sends sendDh_rest (by rw [hs]; decide)
  · rename_i hs
    exact sends (.bind sendDh_rest fun _ => sendAuth_rest K) (by rw [hs]; decide)
  · rename_i hs
    exact sends (sendAuthResponse_rest _) (by rw [hs]; decide)
  · rename_i hs
    refine .modify fun s hst => ⟨fun hge => ?_, fun hf => ?_, fun _ _ => ?_, fun _ he => ?_, fun hne => ?_⟩
    · rw [← hcount] at hge
      omega
    · exact absurd (hs.symm.trans (hstate.trans hf)) (by decide)
    · rw [hst, hs]
    · rw [← hstate, hs] at he
      exact absurd he (by decide)
    · exact absurd (by rw [hst, hs]) hne

/-! ### What it sends -/

/-- What gets a connection connected: a half of the exchange, an authentication, or the answer to one. -/
def Outgoing.exchange : Outgoing → Bool
  | .dh _ => true
  | .frame t _ _ => t = .auth || t = .authResp

/-- No fault is due, and this was sent. -/
private def HasSent (l : List Outgoing) (c : Conn) : Prop := c.env.faults = none ∧ c.sent = l

/-- No fault is due, and this and a packet of the exchange were sent, and maybe more. -/
private def HasExchanged (l : List Outgoing) (c : Conn) : Prop :=
  c.env.faults = none ∧ ∃ o rest, o.exchange = true ∧ c.sent = l ++ o :: rest

/-- The handler returns, unless something it uses is missing. -/
private abbrev Sending (P Q : Conn → Prop) (m : Handler Unit) : Prop :=
  Post P m (fun _ => Q) fun e _ => e ≠ .exception

section
variable {K : Crypto} {l : List Outgoing}

private theorem external_sending {P : Conn → Prop} (hP : ∀ c, P c → c.env.faults = none) : Sending P P external :=
  (external_returns hP).conseq (fun _ => id) (fun _ _ => id) fun _ _ h => h.elim

/-- A packet of the exchange after what was sent. -/
private theorem append_first {o : Outgoing} (ho : o.exchange = true) : Sending (HasSent l) (HasExchanged l) (do
    external
    Eff.modify fun c => { c with sent := c.sent ++ [o] }) :=
  .bind (external_sending fun _ h => h.1) fun _ => .modify fun c hc => ⟨hc.1, o, [], ho, congrArg (· ++ [o]) hc.2⟩

private theorem append_more {o : Outgoing} : Sending (HasExchanged l) (HasExchanged l) (do
    external
    Eff.modify fun c => { c with sent := c.sent ++ [o] }) := by
  refine .bind (external_sending fun _ h => h.1) fun _ => .modify fun c hc => ?_
  obtain ⟨hf, o', rest, ho', heq⟩ := hc
  refine ⟨hf, o', rest ++ [o], ho', ?_⟩
  show c.sent ++ [o] = l ++ o' :: (rest ++ [o])
  rw [heq, List.append_assoc, List.cons_append]

private theorem sendDh_first : Sending (HasSent l) (HasExchanged l) sendDh := by
  refine .get_keep fun _ _ => ?_
  split
  · exact .throw fun _ _ => by decide
  · exact append_first rfl

private theorem send_first {t : MessageType} (ht : t = .auth ∨ t = .authResp) (payload : Bytes) :
    Sending (HasSent l) (HasExchanged l) (send t payload) := by
  refine .get_keep fun _ _ => .ite (fun _ => ?_) fun _ => .throw fun _ _ => by decide
  split
  · exact .throw fun _ _ => by decide
  · refine append_first ?_
    rcases ht with rfl | rfl <;> rfl

private theorem sendAuth_more : Sending (HasExchanged l) (HasExchanged l) (sendAuth K) := by
  refine .get_keep fun _ _ => ?_
  split
  · exact .throw fun _ _ => by decide
  refine .ite (fun _ => .get_keep fun _ _ => .ite (fun _ => ?_) fun _ => .throw fun _ _ => by decide)
    fun _ => .throw fun _ _ => by decide
  split
  · exact .throw fun _ _ => by decide
  · exact append_more

/-- The call will not fail the connection and finds it in the key exchange. -/
def Conn.sends (c : Conn) : Bool := (c.advanceCount + 1).toNat < 10 && c.curState.exchanging

/-- Such a call sends a packet of the exchange, if no outside call throws. -/
private theorem advance_sends (K : Crypto) {c : Conn} (hs : c.sends = true) (hf : c.env.faults = none) :
    Sending (fun t => t = c) (HasExchanged c.sent) (advance K) := by
  obtain ⟨hlt, hex⟩ := Bool.and_eq_true_iff.mp hs
  obtain ⟨u, hu⟩ : ∃ u : Conn, u = { c with advanceCount := c.advanceCount + 1 } := ⟨_, rfl⟩
  have hstate : u.curState = c.curState := by rw [hu]
  have hcount : u.advanceCount = c.advanceCount + 1 := by rw [hu]
  have hsent : HasSent c.sent u := by
    rw [hu]
    exact ⟨hf, rfl⟩
  refine .bind (R := fun _ t => t = u) (.modify fun t ht => by rw [hu, ht]) fun _ => .get_bind fun t ht => ?_
  subst ht
  rw [hcount, if_neg (by simpa using hlt)]
  have start {m : Handler Unit} (h : Sending (HasSent c.sent) (HasExchanged c.sent) m) :
      Sending (fun s => s = t) (HasExchanged c.sent) m := h.named hsent
  split
  · rename_i hfail
    rw [← hstate, hfail] at hex
    exact absurd hex (by decide)
  · refine start ?_
    refine .bind (R := fun _ => HasSent c.sent) (.modify fun _ h => h) fun _ => .bind sendDh_first fun _ => ?_
    exact .modify fun _ h => h
  · exact start sendDh_first
  · exact start (.bind sendDh_first fun _ => sendAuth_more)
  · exact start (.get_keep fun _ _ => send_first (.inr rfl) _)
  · rename_i hconn
    rw [← hstate, hconn] at hex
    exact absurd hex (by decide)

end

/-! ### The calls since the last attempt ended -/

/-- A connection with the calls of `advance` since it was last connected or last left `failed`, how many of
them a fault was due for, and how much had been sent before them. -/
structure Attempt where
  conn : Conn
  calls : Nat := 0
  faulty : Nat := 0
  start : Nat

def Attempt.new (c : Conn) : Attempt := { conn := c, start := c.sent.length }

def Attempt.packets (a : Attempt) : List Outgoing := (a.conn.sent.drop a.start).filter Outgoing.exchange

/-- A step leaves `failed`. -/
def recovers (c t : Conn) : Bool := c.curState = .failed && t.curState ≠ .failed

def Attempt.step (K : Crypto) (fuel : Nat) (a : Attempt) (e : Event) : Option Attempt := do
  let t ← Connection.step K fuel a.conn e
  if t.curState = .connected || recovers a.conn t then some (.new t)
  else match e with
    | .advance env =>
      some { a with conn := t, calls := a.calls + 1, faulty := if env.faults = none then a.faulty else a.faulty + 1 }
    | .packet _ _ | .close _ => some { a with conn := t }

/-- `advance` fails a connection only with the tenth call since it was last connected or last left `failed`, and each
call before that has sent a packet of the key exchange, unless the socket was to throw. -/
def Budgeted (a : Attempt) (e : Event) (b : Attempt) : Prop :=
  ∀ env, e = .advance env → a.conn.curState ≠ .failed → b.conn.curState = .failed →
    10 ≤ b.calls ∧ b.calls ≤ b.faulty + b.packets.length + 1

/-- The step takes the connection out of `connected` or out of `failed`. -/
def leaves (K : Crypto) (fuel : Nat) (c : Conn) (e : Event) : Bool :=
  (Connection.step K fuel c e).any fun t => c.curState ≠ t.curState && !c.curState.exchanging

/-- No step takes the connection out of `connected` or `failed` with calls on its counter. -/
def CleanExit (K : Crypto) (fuel : Nat) (a : Attempt) (e : Event) : Prop :=
  leaves K fuel a.conn e = true → a.conn.advanceCount = 0

instance (K : Crypto) (fuel : Nat) (a : Attempt) (e : Event) : Decidable (CleanExit K fuel a e) :=
  inferInstanceAs (Decidable (leaves K fuel a.conn e = true → a.conn.advanceCount = 0))

/-- The counter is not ahead of the calls that were made, and each of these has sent. -/
structure Attempt.Sound (a : Attempt) : Prop where
  counted : a.conn.curState ≠ .connected → a.conn.advanceCount.toNat ≤ a.calls
  start : a.start ≤ a.conn.sent.length
  sent : a.conn.curState ≠ .failed → a.calls ≤ a.faulty + a.packets.length

section
variable {K : Crypto} {fuel : Nat} {a b : Attempt} {c t : Conn} {e : Event}

theorem step_advanced {env : Env} (h : step K fuel c (.advance env) = some t) : Advanced c t := by
  have hadv : Advanced { c with env := env } t := by
    rw [step_final h]
    exact (advance_post K { c with env := env }).final rfl
  exact ⟨hadv.spent, hadv.failed, hadv.connected, hadv.exchanging, hadv.count⟩

theorem step_count (h : step K fuel c e = some t) (he : ∀ env, e ≠ .advance env) : t.advanceCount = c.advanceCount := by
  rw [step_final h]
  cases e with
  | packet d env => exact (handlePacket_grown fuel d { c with env := env }).count
  | advance env => exact absurd rfl (he env)
  | close env => exact (close_onward { c with env := env }).count

theorem step_sent (h : step K fuel c e = some t) : c.sent <+: t.sent := by
  rw [step_final h]
  cases e with
  | packet d env => exact (handlePacket_grown fuel d { c with env := env }).sent
  | advance env => exact (advance_unresumed { c with env := env }).sent
  | close env => exact (close_onward { c with env := env }).sent

theorem step_exchanged {env : Env} (h : step K fuel c (.advance env) = some t) (hs : c.sends = true)
    (hf : env.faults = none) : HasExchanged c.sent t := by
  have hpost := @advance_sends K { c with env := env } hs hf { c with env := env } rfl
  unfold step at h
  split at h <;> rename_i heq <;> cases h <;> rw [Event.handler] at heq <;>
    rw [show Event.env (.advance env) = env from rfl] at heq <;> rw [heq] at hpost
  · exact absurd rfl hpost
  · exact hpost

theorem Attempt.packets_le {n : Nat} (h : c.sent <+: t.sent) :
    ((c.sent.drop n).filter Outgoing.exchange).length ≤ ((t.sent.drop n).filter Outgoing.exchange).length :=
  ((h.drop n).filter _).length_le

theorem leaves_of_step (h : step K fuel c e = some t) (hne : c.curState ≠ t.curState)
    (hc : c.curState.exchanging = false) : leaves K fuel c e = true := by
  rw [leaves, h, Option.any_some, hc]
  simpa using hne

/-- Everything a step can be: it ends in `connected` or leaves `failed` and starts anew, it is a call that counts, or it is
something else. -/
theorem Attempt.step_cases (h : a.step K fuel e = some b) :
    ∃ t, Connection.step K fuel a.conn e = some t ∧ b.conn = t ∧
      ((t.curState = .connected ∨ a.conn.curState = .failed ∧ t.curState ≠ .failed) ∧ b = .new t ∨
        t.curState ≠ .connected ∧ (a.conn.curState = .failed → t.curState = .failed) ∧
          ((∃ env, e = .advance env ∧ b = { a with
              conn := t, calls := a.calls + 1, faulty := if env.faults = none then a.faulty else a.faulty + 1 }) ∨
            (∀ env, e ≠ .advance env) ∧ b = { a with conn := t })) := by
  rw [Attempt.step] at h
  obtain ⟨t, ht, h⟩ := Option.bind_eq_some_iff.mp h
  refine ⟨t, ht, ?_⟩
  by_cases hreset : (decide (t.curState = .connected) || recovers a.conn t) = true
  · rw [if_pos hreset] at h
    obtain rfl := Option.some.inj h
    refine ⟨rfl, .inl ⟨?_, rfl⟩⟩
    rw [Bool.or_eq_true_iff, recovers, Bool.and_eq_true, decide_eq_true_eq, decide_eq_true_eq, decide_eq_true_eq] at hreset
    exact hreset
  · rw [if_neg hreset] at h
    rw [Bool.or_eq_true_iff, not_or, decide_eq_true_eq, recovers, Bool.and_eq_true, decide_eq_true_eq,
      decide_eq_true_eq, not_and, not_not] at hreset
    cases e with
    | advance env =>
      obtain rfl := Option.some.inj h
      exact ⟨rfl, .inr ⟨hreset.1, hreset.2, .inl ⟨env, rfl, rfl⟩⟩⟩
    | packet d env =>
      obtain rfl := Option.some.inj h
      exact ⟨rfl, .inr ⟨hreset.1, hreset.2, .inr ⟨(fun _ hc => by cases hc), rfl⟩⟩⟩
    | close env =>
      obtain rfl := Option.some.inj h
      exact ⟨rfl, .inr ⟨hreset.1, hreset.2, .inr ⟨(fun _ hc => by cases hc), rfl⟩⟩⟩

private theorem not_exchanging {s : State} : s.exchanging = false ↔ s = .failed ∨ s = .connected := by
  cases s <;> decide

/-- A new attempt: the counter is zero, or the connection is connected. -/
theorem Attempt.new_sound (h : c.curState ≠ .connected → c.advanceCount = 0) : (Attempt.new c).Sound := by
  refine ⟨fun hne => ?_, Nat.le_refl _, fun _ => Nat.zero_le _⟩
  show c.advanceCount.toNat ≤ 0
  rw [h hne]
  exact Nat.le_refl _

/-- A call that finds its budget unspent sends a packet, unless a fault is due. -/
theorem Attempt.Sound.advanced (ha : a.Sound) {env : Env} (hs : Connection.step K fuel a.conn (.advance env) = some t)
    (hsends : a.conn.sends = true) (hne : a.conn.curState ≠ .failed) :
    a.calls + 1 ≤ (if env.faults = none then a.faulty else a.faulty + 1) +
      ((t.sent.drop a.start).filter Outgoing.exchange).length := by
  have hsent := ha.sent hne
  have hle := Attempt.packets_le (n := a.start) (step_sent hs)
  rw [Attempt.packets] at hsent
  split_ifs with hf
  · obtain ⟨-, o, rest, ho, heq⟩ := step_exchanged hs hsends hf
    rw [heq, List.drop_append_of_le_length ha.start, List.filter_append, List.length_append, List.filter_cons_of_pos ho,
      List.length_cons]
    omega
  · omega

/-- A call that neither connects nor starts anew: at ten it fails, and all the calls before it have sent. -/
private theorem Attempt.Sound.call (ha : a.Sound) {env : Env}
    (hs : Connection.step K fuel a.conn (.advance env) = some t) (hnotconn : a.conn.curState ≠ .connected)
    (hnc : t.curState ≠ .connected) (hb : b = { a with
      conn := t, calls := a.calls + 1, faulty := if env.faults = none then a.faulty else a.faulty + 1 }) :
    Budgeted a (.advance env) b ∧ b.Sound := by
  subst hb
  have hadv := step_advanced hs
  have hcounted := ha.counted hnotconn
  have hsucc : (a.conn.advanceCount + 1).toNat ≤ a.conn.advanceCount.toNat + 1 := by bv_omega
  have hex (hne : a.conn.curState ≠ .failed) : a.conn.curState.exchanging = true := by
    rw [← Bool.not_eq_false, not_exchanging, not_or]
    exact ⟨hne, hnotconn⟩
  have hcount : t.advanceCount.toNat ≤ a.calls + 1 := by
    rw [hadv.count hnc]
    omega
  refine ⟨fun _ _ hne hf => ?_, fun _ => hcount, ha.start.trans (step_sent hs).length_le, fun hne => ?_⟩
  · have hbefore := ha.sent hne
    have hmore := Attempt.packets_le (n := a.start) (step_sent hs)
    have hten : 10 ≤ (a.conn.advanceCount + 1).toNat := by
      by_contra hlt
      have := hadv.exchanging (by omega) (hex hne)
      rw [hf] at this
      exact absurd this (by decide)
    rw [Attempt.packets] at hbefore ⊢
    dsimp only
    split_ifs <;> omega
  · have hstate : a.conn.curState ≠ .failed := fun hf => hne (hadv.failed hf)
    have hlt : (a.conn.advanceCount + 1).toNat < 10 := by
      by_contra hge
      exact hne (hadv.spent (by omega))
    have hsends : a.conn.sends = true := by
      rw [Conn.sends, decide_eq_true hlt, Bool.true_and]
      exact hex hstate
    exact ha.advanced hs hsends hstate

/-- A step that ends or interrupts an attempt starts the next one with a new counter. -/
theorem Attempt.Sound.step (ha : a.Sound) (hx : CleanExit K fuel a e) (h : a.step K fuel e = some b) :
    Budgeted a e b ∧ b.Sound := by
  obtain ⟨t, ht, rfl, hcases⟩ := Attempt.step_cases h
  have clean (hne : a.conn.curState ≠ b.conn.curState) (hc : a.conn.curState = .failed ∨ a.conn.curState = .connected) :
      a.conn.advanceCount = 0 :=
    hx (leaves_of_step ht hne (not_exchanging.mpr hc))
  have hsent := step_sent ht
  have hstart : a.start ≤ b.conn.sent.length := ha.start.trans hsent.length_le
  rcases hcases with ⟨hnew, hb⟩ | ⟨hnc, hstays, hgo⟩
  · refine ⟨fun env he hne hf => ?_, hb ▸ Attempt.new_sound fun hnc => ?_⟩
    · rcases hnew with hconn | ⟨hfail, -⟩
      · exact absurd (hconn.symm.trans hf) (by decide)
      · exact absurd hfail hne
    · obtain ⟨hfail, hnf⟩ := hnew.resolve_left hnc
      have hkept : b.conn.advanceCount = a.conn.advanceCount := by
        apply step_count ht
        rintro env rfl
        exact hnf ((step_advanced ht).failed hfail)
      rw [hkept, clean (fun heq => hnf (heq.symm.trans hfail)) (.inl hfail)]
  rcases hgo with ⟨env, rfl, hb⟩ | ⟨hother, hb⟩
  · refine ha.call ht (fun hc => ?_) hnc hb
    have hzero := clean (fun heq => hnc (heq.symm.trans hc)) (.inr hc)
    refine hnc ((step_advanced ht).connected ?_ hc)
    rw [hzero]
    decide
  · have hkept := step_count ht hother
    refine ⟨fun env he => absurd he (hother env), ?_⟩
    rw [hb]
    refine ⟨fun _ => ?_, hstart, fun hne => ?_⟩
    · by_cases hc : a.conn.curState = .connected
      · show b.conn.advanceCount.toNat ≤ a.calls
        rw [hkept, clean (fun heq => hnc (heq.symm.trans hc)) (.inr hc)]
        exact Nat.zero_le _
      · exact hkept ▸ ha.counted hc
    · have hbefore := ha.sent fun hf => hne (hstays hf)
      exact hbefore.trans (Nat.add_le_add_left (Attempt.packets_le (n := a.start) hsent) _)

end

end Tornet.Connection
