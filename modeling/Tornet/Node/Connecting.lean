import Tornet.Connection.Host
import Tornet.Library.Runs

/-! `node::connect_to`: calls that find or create the connection of an endpoint and wait until it is
connected, beside the datagrams that create connections too. -/
namespace Tornet.Node.Connecting
open Library Runs

/-- The fields of a connection that `connect_to` depends on. -/
structure Con where
  ep : Endpoint
  state : Connection.State := .uninit
  remoteId : Sha1 := 0
  advanceCount : BitVec 16 := 0
  deriving DecidableEq, Repr

/-- `connection::connection`, with the id of the record that is stored for the endpoint. -/
def Con.new (ep : Endpoint) (known : Option Sha1) : Con :=
  match known with
  | some nid => { ep, state := .connected, remoteId := nid }
  | none => { ep }

/-- The switch of `connection::advance`. -/
def Con.proceed (c : Con) : Con :=
  match c.state with
  | .uninit => { c with state := .generatedDh }
  | .connected => { c with advanceCount := 0 }
  | .failed | .generatedDh | .receivedDh | .authenticated => c

/-- `connection::advance`. -/
def Con.advance (c : Con) : Con :=
  let c := { c with advanceCount := c.advanceCount + 1 }
  if 10 ≤ c.advanceCount.toNat then { c with state := .failed } else c.proceed

/-- `connection::close`. -/
def Con.close (c : Con) : Con := { c with state := .uninit }

/-! ### The fields as the handlers of a connection leave them -/

section View
open Connection Eff

/-- What `connect_to` sees of a connection. -/
def view (c : Conn) : Con := ⟨c.remoteEp, c.curState, c.remoteId, c.advanceCount⟩

/-- A handler that returns takes what is seen of the connection from `v` to `u`. -/
def Views (v : Con) (m : Handler Unit) (u : Con) : Prop :=
  Triple (fun c => view c = v) m (fun _ c => view c = u) fun _ => True

variable {v u w : Con}

theorem Views.bind {m : Handler Unit} {f : Unit → Handler Unit} (hm : Views v m u) (hf : ∀ a, Views u (f a) w) :
    Views v (m >>= f) w :=
  Triple.bind hm hf

theorem Views.modify {f : Conn → Conn} (h : ∀ c, view c = v → view (f c) = u) : Views v (Eff.modify f) u :=
  Triple.modify h

theorem Views.of_frame {m : Handler Unit} (h : Frame view m) : Views v m v :=
  (h.triple (· = v)).conseq (fun _ => id) (fun _ _ => id) fun _ _ => trivial

/-- Sending and storing change nothing that is seen. -/
theorem Views.of_rest {m : Handler Unit} (h : Frame Conn.rest m) : Views v m v :=
  .of_frame (h.map view fun _ => rfl)

theorem gotoState_views (s : Connection.State) : Views v (gotoState s) { v with state := s } :=
  .modify fun c hc => by rw [← hc]; rfl

theorem Views.named {m : Handler Unit} {c : Conn} (h : Views v m u) (hc : view c = v) :
    Triple (fun t => t = c) m (fun _ t => view t = u) fun _ => True :=
  h.conseq (fun _ ht => ht ▸ hc) (fun _ _ => id) fun _ => id

/-- The handler for `advance` does to the fields what `Con.advance` does. -/
theorem advance_views (K : Crypto) (v : Con) : Views v (Connection.advance K) v.advance := by
  obtain ⟨u, hu⟩ : ∃ u : Con, u = { v with advanceCount := v.advanceCount + 1 } := ⟨_, rfl⟩
  refine .bind (u := u) (.modify fun c hc => by rw [hu, ← hc]; rfl) fun _ => Triple.get_bind fun c hc => ?_
  have hcount : c.advanceCount = u.advanceCount := congrArg Con.advanceCount hc
  have hstate : c.curState = u.state := congrArg Con.state hc
  have hadv : v.advance = if 10 ≤ u.advanceCount.toNat then { u with state := .failed } else u.proceed := by
    rw [Con.advance, hu]
  rw [hcount, hstate, hadv]
  split_ifs
  · exact (gotoState_views .failed).named hc
  rw [Con.proceed]
  cases hs : u.state with
  | failed => exact Triple.pure fun t ht => ht ▸ hc
  | uninit =>
    refine Views.named (.bind (u := u) (.modify fun c hc => hc) fun _ => ?_) hc
    exact .bind (.of_rest sendDh_rest) fun _ => gotoState_views .generatedDh
  | generatedDh => exact (Views.of_rest sendDh_rest).named hc
  | receivedDh => exact Views.named (.bind (.of_rest sendDh_rest) fun _ => .of_rest (sendAuth_rest K)) hc
  | authenticated => exact (Views.of_rest (sendAuthResponse_rest _)).named hc
  | connected =>
    refine Views.named (.modify fun t ht => ?_) hc
    have ht' : t.curState = .connected := (congrArg Con.state ht).trans hs
    simp only [view, ht', ← ht]

/-- `close` leaves the connection without its state, and with its remote id. -/
theorem close_views (K : Crypto) (v : Con) : Views v (Connection.close K) v.close := by
  have hreset : Views v (Connection.reset K) v.close := by
    refine Triple.get_bind fun c hc => Views.named ?_ hc
    refine .bind (.of_frame (.when (.bind (.modify fun _ => rfl) fun _ => ?_))) fun _ => ?_
    · exact (storeRecord_rest K _).map view fun _ => rfl
    refine .bind (.of_rest external_rest) fun _ => .bind (.of_rest external_rest) fun _ => ?_
    exact gotoState_views .uninit
  refine Triple.get_bind fun c hc => Views.named ?_ hc
  exact .bind (.of_rest (.when (send_rest _ _))) fun _ => hreset

/-- The constructor leaves what `Con.new` says for the record it finds. -/
theorem construct_views (K : Crypto) (ep : Endpoint) (db : PeerDb) (env : Env) :
    Triple (fun c => c = { Conn.init ep db with env := env }) (construct K)
      (fun _ c => view c = Con.new ep ((db.fetchByEndpoint ep).map Prod.fst)) fun _ => True := by
  refine Triple.get_bind fun c hc => ?_
  subst hc
  split
  · rename_i nid r hfound
    have hknown : db.fetchByEndpoint ep = some (nid, r) := hfound
    rw [hknown]
    refine Triple.bind (Triple.modify (Q := fun _ c => view c = ⟨ep, .uninit, nid, 0⟩) fun t ht => ht ▸ rfl)
      fun _ => ?_
    refine Views.bind (.of_rest external_rest) fun _ => .bind (gotoState_views .connected) fun _ => ?_
    exact .bind (.modify fun c hc => hc) fun _ => .of_rest (storeRecord_rest K nid)
  · rename_i hnone
    have hunknown : db.fetchByEndpoint ep = none := hnone
    rw [hunknown]
    exact Triple.pure fun t ht => ht ▸ rfl

end View

/-- Who asks for a connection: one of the two overloads, or a datagram. -/
inductive Kind where
  | direct
  | viaNat (natEp : Endpoint)
  | datagram
  deriving DecidableEq, Repr

/-- Where a call is: in the constructor of a connection, in the loop over the state of the connection
it holds, returned, left by an exception, or done without a result. -/
inductive Phase where
  | constructing
  | polling (c : Nat)
  | returned (id : Sha1)
  | threw
  | served
  deriving DecidableEq, Repr

/-- A call of `connect_to` or of `handle_packet`. -/
structure Call where
  kind : Kind
  ep : Endpoint
  phase : Phase
  deriving DecidableEq, Repr

/-- `_ep_to_con`, with connections named by the order of their construction, and the calls. -/
structure State where
  cons : List Con := []
  epToCon : Endpoint → Option Nat := fun _ => none
  calls : List Call := []

/-- What happens: a call, the end of a constructor, one turn of a loop, an exception in a call (also
the time-out of the second overload), and whatever a handler makes of a connection. -/
inductive Event where
  | connectTo (ep : Endpoint)
  | connectToVia (ep natEp : Endpoint)
  | datagram (ep : Endpoint)
  | constructed (i : Nat) (known : Option Sha1)
  | poll (i : Nat)
  | throws (i : Nat)
  | handled (c : Nat) (state : Connection.State) (remoteId : Sha1) (advanceCount : BitVec 16)
  deriving DecidableEq, Repr

namespace State

def stored (s : State) (ep : Endpoint) : Option Con := (s.epToCon ep).bind (s.cons[·]?)

def start (s : State) (kind : Kind) (ep : Endpoint) (phase : Phase) : State :=
  { s with calls := s.calls ++ [⟨kind, ep, phase⟩] }

def setPhase (s : State) (i : Nat) (c : Call) (phase : Phase) : State :=
  { s with calls := s.calls.set i { c with phase } }

/-- `connect_to( ep )` up to its first wait. -/
def connectTo (s : State) (ep : Endpoint) : State :=
  match s.epToCon ep with
  | some c => s.start .direct ep (.polling c)
  | none => s.start .direct ep .constructing

/-- `connect_to( ep, nat_ep )` up to its first wait. -/
def connectToVia (s : State) (ep natEp : Endpoint) : State :=
  match s.stored ep with
  | some con => s.start (.viaNat natEp) ep (.returned con.remoteId)
  | none =>
    if (s.stored natEp).map Con.state = some .connected then s.start (.viaNat natEp) ep .constructing
    else s.start (.viaNat natEp) ep .threw

/-- `node::impl::handle_packet`; the datagram itself is processed later. -/
def handlePacket (s : State) (ep : Endpoint) : State :=
  match s.epToCon ep with
  | some _ => s
  | none => s.start .datagram ep .constructing

/-- `_ep_to_con[ep] = c`, whatever is there. -/
def constructed (s : State) (i : Nat) (c : Call) (known : Option Sha1) : State :=
  let t : State := { s with
    cons := s.cons ++ [Con.new c.ep known]
    epToCon := Function.update s.epToCon c.ep (some s.cons.length) }
  t.setPhase i c (if c.kind = .datagram then .served else .polling s.cons.length)

/-- One turn of the loop; only the first overload advances the connection and closes it. -/
def poll (s : State) (i : Nat) (c : Call) (k : Nat) (con : Con) : State :=
  match con.state with
  | .failed =>
    let t : State := if c.kind = .direct then { s with cons := s.cons.set k con.close } else s
    t.setPhase i c .threw
  | .connected => s.setPhase i c (.returned con.remoteId)
  | .uninit | .generatedDh | .receivedDh | .authenticated =>
    if c.kind = .direct then { s with cons := s.cons.set k con.advance } else s

end State

/-- One event; `none` where the call is not at that point. -/
def step (s : State) : Event → Option State
  | .connectTo ep => some (s.connectTo ep)
  | .connectToVia ep natEp => some (s.connectToVia ep natEp)
  | .datagram ep => some (s.handlePacket ep)
  | .constructed i known => do
    let c ← s.calls[i]?
    if c.phase = .constructing then some (s.constructed i c known) else none
  | .poll i =>
    match s.calls[i]? with
    | some ⟨kind, ep, .polling k⟩ => (s.cons[k]?).map (s.poll i ⟨kind, ep, .polling k⟩ k)
    | _ => none
  | .throws i =>
    match s.calls[i]? with
    | some ⟨kind, ep, .polling k⟩ => some (s.setPhase i ⟨kind, ep, .polling k⟩ .threw)
    | some ⟨kind, ep, .constructing⟩ => some (s.setPhase i ⟨kind, ep, .constructing⟩ .threw)
    | _ => none
  | .handled k state remoteId advanceCount =>
    (s.cons[k]?).map fun con => { s with cons := s.cons.set k { con with state, remoteId, advanceCount } }

/-- Every call that returns an id with this step finds, at that moment, the connection stored for its
endpoint connected and with that id. -/
def ReturnsLive (s : State) (t : State) : Prop :=
  ∀ (i : Nat) (c : Call) (x : Sha1), t.calls[i]? = some c → c.phase = .returned x → s.calls[i]? ≠ some c →
    ∃ con : Con, t.stored c.ep = some con ∧ con.state = .connected ∧ con.remoteId = x

/-- The second overload is called where no connection is stored for the endpoint or a connected one, and a
new connection does not take the place of another. -/
def undisturbed (s : State) : Event → Prop
  | .connectToVia ep _ => ∀ con, s.stored ep = some con → con.state = .connected
  | .constructed i _ => ∀ c, s.calls[i]? = some c → s.epToCon c.ep = none
  | _ => True

instance (s : State) : (e : Event) → Decidable (undisturbed s e)
  | .connectToVia ep _ => inferInstanceAs (Decidable (∀ con ∈ s.stored ep, con.state = .connected))
  | .constructed i _ => inferInstanceAs (Decidable (∀ c ∈ s.calls[i]?, s.epToCon c.ep = none))
  | .connectTo _ | .datagram _ | .poll _ | .throws _ | .handled _ _ _ _ => inferInstanceAs (Decidable True)

namespace State

variable {s t : State} {i j k : Nat} {c d : Call}

/-- Stored connections exist, and a call in its loop holds the one stored for its endpoint. -/
structure Inv (s : State) : Prop where
  valid : ∀ ep k, s.epToCon ep = some k → k < s.cons.length
  polling : ∀ (i : Nat) (c : Call) (k : Nat), s.calls[i]? = some c → c.phase = .polling k →
    s.epToCon c.ep = some k

private theorem get_start {kind : Kind} {ep : Endpoint} {phase : Phase} (h : (s.start kind ep phase).calls[j]? = some d) :
    s.calls[j]? = some d ∨ d = ⟨kind, ep, phase⟩ := by
  rw [start, List.getElem?_append] at h
  split_ifs at h
  · exact .inl h
  · exact .inr (List.mem_singleton.mp (List.mem_of_getElem? h))

theorem get_setPhase {phase : Phase} (h : (s.setPhase i c phase).calls[j]? = some d) :
    s.calls[j]? = some d ∨ d = { c with phase } := by
  rw [setPhase, List.getElem?_set] at h
  split_ifs at h
  · exact .inr (Option.some.inj h).symm
  · exact .inl h

/-- A call begins: in a constructor, done, or with the stored connection. -/
theorem Inv.start {kind : Kind} {ep : Endpoint} {phase : Phase} (h : s.Inv)
    (hp : ∀ k, phase = .polling k → s.epToCon ep = some k) : (s.start kind ep phase).Inv := by
  refine ⟨h.valid, fun j d k hd hk => ?_⟩
  rcases get_start hd with hd | rfl
  · exact h.polling j d k hd hk
  · exact hp k hk

/-- A call goes on to a phase without a connection. -/
theorem Inv.setPhase {phase : Phase} (h : s.Inv) (hp : ∀ k, phase ≠ .polling k) : (s.setPhase i c phase).Inv := by
  refine ⟨h.valid, fun j d k hd hk => ?_⟩
  rcases get_setPhase hd with hd | rfl
  · exact h.polling j d k hd hk
  · exact absurd hk (hp k)

/-- A connection changes. -/
theorem Inv.setCon {con : Con} (h : s.Inv) : { s with cons := s.cons.set k con }.Inv :=
  ⟨fun ep k' hk => by simpa using h.valid ep k' hk, h.polling⟩

theorem Inv.constructed {known : Option Sha1} (h : s.Inv) (hfree : s.epToCon c.ep = none) :
    (s.constructed i c known).Inv := by
  refine ⟨fun ep k hk => ?_, fun j d k hd hk => ?_⟩
  · simp only [State.constructed, State.setPhase, List.length_append, List.length_singleton] at hk ⊢
    by_cases hep : ep = c.ep
    · subst hep
      simp only [Function.update_self, Option.some.injEq] at hk
      omega
    · rw [Function.update_of_ne hep] at hk
      exact Nat.lt_succ_of_lt (h.valid ep k hk)
  · simp only [State.constructed, State.setPhase] at hd ⊢
    rcases get_setPhase (s := s) hd with hd | rfl
    · have hold := h.polling j d k hd hk
      have hne : d.ep ≠ c.ep := by
        intro heq
        rw [heq, hfree] at hold
        cases hold
      rw [Function.update_of_ne hne]
      exact hold
    · simp only at hk ⊢
      split_ifs at hk
      cases hk
      exact Function.update_self ..

end State

/-- What a step does to the calls and connections: a call begins, its constructor is done, its loop ends
with an id or by an exception, a connection changes, or nothing. -/
inductive Takes (s : State) : Event → State → Prop
  | began {e : Event} {kind : Kind} {ep : Endpoint} {phase : Phase} :
      (∀ k, phase = .polling k → s.epToCon ep = some k) →
      (∀ x, phase = .returned x → ∃ natEp con, e = .connectToVia ep natEp ∧ s.stored ep = some con ∧ con.remoteId = x) →
      Takes s e (s.start kind ep phase)
  | constructed {i : Nat} {c : Call} (known : Option Sha1) : s.calls[i]? = some c →
      Takes s (.constructed i known) (s.constructed i c known)
  | returned {i k : Nat} {c : Call} {con : Con} : s.calls[i]? = some c → c.phase = .polling k → s.cons[k]? = some con →
      con.state = .connected → Takes s (.poll i) (s.setPhase i c (.returned con.remoteId))
  | threw (e : Event) (i : Nat) (c : Call) : Takes s e (s.setPhase i c .threw)
  | closed (e : Event) (i k : Nat) (c : Call) (con : Con) :
      Takes s e (State.setPhase { s with cons := s.cons.set k con } i c .threw)
  | changed (e : Event) (k : Nat) (con : Con) : Takes s e { s with cons := s.cons.set k con }
  | idle (e : Event) : Takes s e s

/-- A call that begins without a result, and without a connection. -/
theorem Takes.fresh {s : State} (e : Event) (kind : Kind) (ep : Endpoint) {phase : Phase}
    (hk : ∀ k, phase ≠ .polling k) (hx : ∀ x, phase ≠ .returned x) : Takes s e (s.start kind ep phase) :=
  .began (fun k hk' => absurd hk' (hk k)) fun x hx' => absurd hx' (hx x)

theorem takes_poll {s : State} {i k : Nat} {c : Call} {con : Con} (hi : s.calls[i]? = some c) (hp : c.phase = .polling k)
    (hk : s.cons[k]? = some con) : Takes s (.poll i) (s.poll i c k con) := by
  rw [State.poll]
  split
  · split_ifs
    · exact .closed _ i k c con.close
    · exact .threw _ i c
  · rename_i hstate
    exact .returned hi hp hk hstate
  all_goals
    split_ifs
    · exact .changed _ k con.advance
    · exact .idle _

theorem takes_of_step {s t : State} {e : Event} (hs : step s e = some t) : Takes s e t := by
  cases e with
  | connectTo ep =>
    cases hs
    rw [State.connectTo]
    split
    · rename_i k hk
      refine .began (fun k' hk' => ?_) fun x hx => ?_
      · cases hk'
        exact hk
      · cases hx
    · exact .fresh _ _ _ (by simp) (by simp)
  | connectToVia ep natEp =>
    cases hs
    rw [State.connectToVia]
    split
    · rename_i con hcon
      refine .began (fun k hk => ?_) fun x hx => ?_
      · cases hk
      · cases hx
        exact ⟨natEp, con, rfl, hcon, rfl⟩
    · split_ifs <;> exact .fresh _ _ _ (by simp) (by simp)
  | datagram ep =>
    cases hs
    rw [State.handlePacket]
    split
    · exact .idle _
    · exact .fresh _ _ _ (by simp) (by simp)
  | constructed i known =>
    obtain ⟨c, hi, hcall⟩ := Option.bind_eq_some_iff.mp hs
    split_ifs at hcall
    cases hcall
    exact .constructed known hi
  | poll i =>
    simp only [step] at hs
    split at hs
    · rename_i kind ep k hi
      obtain ⟨con, hk, rfl⟩ := Option.map_eq_some_iff.mp hs
      exact takes_poll hi rfl hk
    · cases hs
  | throws i =>
    simp only [step] at hs
    split at hs <;> cases hs
    · exact .threw _ i _
    · exact .threw _ i _
  | handled k state remoteId advanceCount =>
    obtain ⟨con, hk, rfl⟩ := Option.map_eq_some_iff.mp hs
    exact .changed _ k _

/-- A step that meets the condition keeps every call at the stored connection. -/
theorem inv_step {s t : State} {e : Event} (h : s.Inv) (hc : undisturbed s e) (hs : Takes s e t) : t.Inv := by
  cases hs with
  | began hk _ => exact h.start hk
  | @constructed i c known hi => exact h.constructed (hc c hi)
  | returned _ _ _ _ => exact h.setPhase (by simp)
  | threw i c => exact h.setPhase (by simp)
  | closed i k c con => exact h.setCon.setPhase (by simp)
  | changed k con => exact h.setCon
  | idle => exact h

/-- A call that begins in a phase without a result returns nothing. -/
theorem returnsLive_start {s : State} {kind : Kind} {ep : Endpoint} {phase : Phase}
    (hp : ∀ x, phase = .returned x → ∃ con : Con, s.stored ep = some con ∧ con.state = .connected ∧ con.remoteId = x) :
    ReturnsLive s (s.start kind ep phase) := by
  intro i c x hi hx hnew
  rcases State.get_start hi with hold | rfl
  · exact absurd hold hnew
  · exact hp x hx

theorem returnsLive_setPhase {s t : State} {i : Nat} {c : Call} {phase : Phase} (ht : t.calls = s.calls)
    (hp : ∀ x, phase = .returned x →
      ∃ con : Con, t.stored c.ep = some con ∧ con.state = .connected ∧ con.remoteId = x) :
    ReturnsLive s (t.setPhase i c phase) := by
  intro j d x hj hx hnew
  rcases State.get_setPhase hj with hold | rfl
  · exact absurd (ht ▸ hold) hnew
  · exact hp x hx

private theorem returnsLive_of_calls {s t : State} (ht : t.calls = s.calls) : ReturnsLive s t :=
  fun _ _ _ hi _ hnew => absurd (ht ▸ hi) hnew

theorem returnsLive_step {s t : State} {e : Event} (h : s.Inv) (hc : undisturbed s e) (hs : Takes s e t) :
    ReturnsLive s t := by
  cases hs with
  | began _ hx =>
    refine returnsLive_start fun x hx' => ?_
    obtain ⟨natEp, con, rfl, hcon, hid⟩ := hx x hx'
    exact ⟨con, hcon, hc con hcon, hid⟩
  | constructed known _ =>
    refine returnsLive_setPhase rfl fun x hx => ?_
    split_ifs at hx
  | @returned i k c con hi hp hk hstate =>
    refine returnsLive_setPhase rfl fun x hx => ?_
    cases hx
    have hstored : s.stored c.ep = some con := by
      rw [State.stored, h.polling i c k hi hp]
      exact hk
    exact ⟨con, hstored, hstate, rfl⟩
  | threw i c => exact returnsLive_setPhase rfl (by simp)
  | closed i k c con => exact returnsLive_setPhase rfl (by simp)
  | changed k con => exact returnsLive_of_calls rfl
  | idle => exact returnsLive_of_calls rfl

/-- In every run in which the second overload is called only for endpoints without a connection or with
a connected one, and no new connection takes the place of another, every id returned is that of the
stored connection, which is connected. -/
theorem connectTo_returns_live {es : List Event} (hg : Guarded step undisturbed {} es) :
    Always step (fun s _ t => ReturnsLive s t) {} es := by
  have hinit : State.Inv {} := ⟨by simp, by simp⟩
  refine always_of_guarded State.Inv (fun s e t h hc hs => ?_) hinit hg
  exact ⟨returnsLive_step h hc (takes_of_step hs), inv_step h hc (takes_of_step hs)⟩

def remote : Endpoint := ⟨0x0a000001, 4000⟩
def introducer : Endpoint := ⟨0x0a000002, 4000⟩

/-- A peer with a stored record: both overloads return its id. -/
theorem returns_live_known : Always step (fun s _ t => ReturnsLive s t) {}
    [.connectTo remote, .constructed 0 (some 7), .poll 0, .connectToVia remote introducer] :=
  connectTo_returns_live (by decide)

/-- An attempt to connect that fails after ten calls of `advance`, and a call of the second overload. -/
def afterFailure : List Event :=
  [.connectTo remote, .constructed 0 none] ++ List.replicate 11 (.poll 0) ++ [.connectToVia remote introducer]

/-- The second overload returns the id zero; the stored connection has been reset. -/
theorem returns_after_failure : ∃ s : State, run step {} afterFailure = some s ∧
    s.calls = [⟨.direct, remote, .threw⟩, ⟨.viaNat introducer, remote, .returned 0⟩] ∧
      s.stored remote = some ⟨remote, .uninit, 0, 10⟩ := by
  exact ⟨_, rfl, by decide, by decide⟩

end Tornet.Node.Connecting
