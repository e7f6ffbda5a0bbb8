import Tornet.Connection.Handlers

/-! What a connection carries through the handling of one datagram. A datagram that cannot be decoded
is handed on decrypted, and may be decrypted again under the key of another record, so the keys that
come into question, and the stages a datagram goes through under them, are fixed beforehand. -/
namespace Tornet.Connection
open Library Eff

def blankKey : Bytes := List.replicate 56 0

/-- The keys a connection may come to use: the one of its cipher, and those of its record, of a blank
record and of the records stored for its endpoint. -/
def Conn.Keys (c : Conn) (k : Bytes) : Prop :=
  c.bf = some k ∨ c.record.bfKey = k ∨ blankKey = k ∨ ∃ e ∈ c.peers.entries, e.2.lastEp = c.remoteEp ∧ e.2.bfKey = k

def Conn.keyList (c : Conn) : List Bytes :=
  c.bf.toList ++ c.record.bfKey :: blankKey ::
    (c.peers.entries.filter fun e => e.2.lastEp = c.remoteEp).map fun e => e.2.bfKey

theorem Conn.Keys.mem_keyList {c : Conn} {k : Bytes} (h : c.Keys k) : k ∈ c.keyList := by
  rcases h with h | rfl | rfl | ⟨e, he, hep, rfl⟩
  · exact List.mem_append_left _ (Option.mem_toList.mpr h)
  · exact List.mem_append_right _ List.mem_cons_self
  · exact List.mem_append_right _ (List.mem_cons_of_mem _ List.mem_cons_self)
  · refine List.mem_append_right _ (List.mem_cons_of_mem _ (List.mem_cons_of_mem _ ?_))
    exact List.mem_map.mpr ⟨e, List.mem_filter.mpr ⟨he, decide_eq_true hep⟩, rfl⟩

/-- No other key comes up from here on. -/
structure Keyed (S : Bytes → Prop) (c : Conn) : Prop where
  blank : S blankKey
  bf : ∀ k, c.bf = some k → S k
  record : S c.record.bfKey
  stored : ∀ e ∈ c.peers.entries, e.2.lastEp = c.remoteEp → S e.2.bfKey

theorem Keyed.keys (c : Conn) : Keyed c.Keys c where
  blank := .inr (.inr (.inl rfl))
  bf _ hk := .inl hk
  record := .inr (.inl rfl)
  stored e he hep := .inr (.inr (.inr ⟨e, he, hep, rfl⟩))

/-- What becomes of a datagram that is decrypted in place, under one key after the other. -/
inductive Stage (K : Crypto) (S : Bytes → Prop) (b : Bytes) : Bytes → Prop where
  | received : Stage K S b b
  | decrypted {d k : Bytes} : Stage K S b d → d.length % 8 = 0 → S k → Stage K S b (K.decrypt k d)

/-- A set of stages that the keys do not lead out of. -/
theorem Stage.mem {K : Crypto} {S : Bytes → Prop} {b d : Bytes} {T : List Bytes} (hb : b ∈ T)
    (hT : ∀ d ∈ T, ∀ k, S k → K.decrypt k d ∈ T) (h : Stage K S b d) : d ∈ T := by
  induction h with
  | received => exact hb
  | decrypted _ _ hk ih => exact hT _ ih _ hk

/-- Some stage of the datagram is a frame with an auth message. -/
def OpensAuth (K : Crypto) (S : Bytes → Prop) (b payload : Bytes) : Prop :=
  ∃ d k, Stage K S b d ∧ d.length % 8 = 0 ∧ S k ∧ checksumOk K (K.decrypt k d) = true ∧
    typeOf (K.decrypt k d) = some .auth ∧
    payloadOf (K.decrypt k d) (((K.decrypt k d).getD 3 0).toNat % 8) = some payload

/-- A datagram that is no frame opens to nothing. -/
theorem OpensAuth.frame {K : Crypto} {S : Bytes → Prop} {b payload : Bytes} (h : OpensAuth K S b payload) :
    b.length % 8 = 0 := by
  obtain ⟨d, k, hd, hlen, -⟩ := h
  induction hd with
  | received => exact hlen
  | decrypted hd hlen' _ ih => exact ih hlen'

/-- What a predicate has to overlook for the calls below to keep it: the environment, what is sent,
the open lookups, and a record that keeps its key or loses it. -/
structure Lax (P : Conn → Prop) : Prop where
  env {c : Conn} (e : Env) : P c → P { c with env := e }
  sent {c : Conn} (l : List Outgoing) : P c → P { c with sent := l }
  lookups {c : Conn} (l : List (Sha1 × UInt32 × Option Sha1)) : P c → P { c with routeLookups := l }
  publicEp {c : Conn} (ep : Endpoint) : P c → P { c with publicEp := ep }
  record {c : Conn} (r : PeerRecord) : r.bfKey = c.record.bfKey ∨ r.bfKey = blankKey → P c →
    P { c with record := r }
  store {c : Conn} : P c → P { c with peers := c.peers.store c.remoteId c.record }

/-- How a handler may stop: an exception leaves `F`, and where `q` is of interest nothing was absent. -/
def Err (q : Prop) (F : Conn → Prop) (e : Stop) (c : Conn) : Prop := (e = .exception → F c) ∧ (q → e ≠ .absent)

theorem Err.mono {q : Prop} {F F' : Conn → Prop} (h : ∀ c, F c → F' c) {e : Stop} {c : Conn} (he : Err q F e c) :
    Err q F' e c :=
  ⟨fun hx => h c (he.1 hx), he.2⟩

theorem Err.exception {q : Prop} {F : Conn → Prop} {c : Conn} (h : F c) : Err q F .exception c :=
  ⟨fun _ => h, fun _ => by decide⟩

theorem Err.crash {q : Prop} {F : Conn → Prop} {c : Conn} : Err q F .crash c :=
  ⟨fun h => absurd h (by decide), fun _ => by decide⟩

theorem Err.overflow {q : Prop} {F : Conn → Prop} {c : Conn} : Err q F .overflow c :=
  ⟨fun h => absurd h (by decide), fun _ => by decide⟩

/-- A handler that stops only so finds everything it uses. -/
theorem Err.quiet {α : Type} {P F : Conn → Prop} {m : Handler α} {Q : α → Conn → Prop} (h : Post P m Q (Err True F))
    {c : Conn} (hc : P c) : (m c).1 ≠ .error .absent := by
  have hpost := h c hc
  intro he
  split at hpost
  · rename_i heq
    rw [heq] at he
    cases he
  · rename_i heq
    rw [heq] at he
    exact hpost.2 trivial (Except.error.inj he)

/-- The connection after `goto_state`. -/
def Conn.inState (s : State) (c : Conn) : Conn :=
  { c with curState := s, verified := if s = .uninit then none else c.verified }

theorem gotoState_post {P Q : Conn → Prop} {E : Stop → Conn → Prop} {s : State} (h : ∀ c, P c → Q (c.inState s)) :
    Post P (gotoState s) (fun _ => Q) E :=
  .modify h

def HasShared (o : Option Dh) : Prop := ∃ dh, o = some dh ∧ dh.sharedKey.length = 56

abbrev Keeps {α : Type} (q : Prop) (P : Conn → Prop) (m : Handler α) : Prop := Post P m (fun _ => P) (Err q P)

/-! ### What a refused datagram leaves -/

section
variable {K : Crypto}

/-- What a handler that returns `false` may have done: it has looked at the message, and sent or reset, and nothing more. -/
structure Kept (K : Crypto) (P : Conn → Prop) : Prop where
  contact {c : Conn} (now : UInt64) : P c → P { c with record := { c.record with lastContact := now } }
  publicEp {c : Conn} (ep : Endpoint) : P c → P { c with publicEp := ep }
  send (t : MessageType) (payload : Bytes) : Post P (send t payload) (fun _ => P) fun _ _ => True
  reset : Post P (reset K) (fun _ => P) fun _ _ => True

private theorem dispatch_false {P : Conn → Prop} (S : Kept K P) (t : MessageType) (payload : Bytes) (first : UInt8) :
    Post P (dispatch K t payload first) (fun ok c => ok = false → P c) fun _ _ => True := by
  have accepts {Q : Conn → Prop} : Post Q (pure true : Handler Bool) (fun ok c => ok = false → P c) fun _ _ => True :=
    .pure fun _ _ h => by cases h
  have rejects : Post P (pure false : Handler Bool) (fun ok c => ok = false → P c) fun _ _ => True :=
    .pure fun _ hc _ => hc
  cases t with
  | data =>
    refine .get_keep fun c hc => .ite (fun _ => .skip fun _ => accepts) fun _ => .bind ?_ fun _ => rejects
    refine .get_keep fun c hc => .bind (.when (fun _ => S.send _ _) fun _ _ => id) fun _ => S.reset
  | auth =>
    rw [dispatch, handleAuthMsg]
    split
    · exact .throw fun _ _ => True.intro
    refine .bind (R := fun _ => P) (.modify fun c hc => S.publicEp _ hc) fun _ => .get_keep fun c hc => ?_
    split
    · exact .throw fun _ _ => True.intro
    refine .ite (fun _ => .throw fun _ _ => True.intro) fun _ => .ite (fun _ => ?_) fun _ => ?_
    · refine .skip fun _ => .skip fun _ => .skip fun _ => .skip fun _ => .skip fun _ => .skip fun _ => ?_
      exact .skip fun _ => .skip fun _ => accepts
    · exact .bind (.get_keep fun _ _ => S.send _ _) fun _ => .bind (S.send _ _) fun _ => rejects
  | authResp =>
    refine .ite (fun _ => .skip fun _ => .skip fun _ => accepts) fun _ => .bind S.reset fun _ => rejects
  | routeLookup =>
    refine .ite (fun _ => .skip fun _ => .skip fun _ => .get_keep (P := fun _ => True) fun _ _ => ?_)
      fun _ => .throw fun _ _ => True.intro
    split
    · exact .throw fun _ _ => True.intro
    · exact .skip fun _ => accepts
  | route =>
    rw [dispatch, handleRouteMsg]
    split
    · exact .throw fun _ _ => True.intro
    · exact .skip fun _ => accepts
  | close => exact .skip fun _ => accepts
  | updateRank => exact .ite (fun _ => rejects) fun _ => .get_keep fun c hc => .skip fun _ => accepts
  | reqReverseConnect => exact .skip fun _ => .skip fun _ => accepts
  | reqConnect => exact .skip fun _ => .skip fun _ => accepts

theorem decodePacket_false {P : Conn → Prop} (S : Kept K P) (b : Bytes) :
    Post P (decodePacket K b) (fun r c => r.1 = false → P c) fun _ _ => True := by
  refine .bind (R := fun _ => P) (.modify fun c hc => S.contact _ hc) fun _ => .get_keep fun c hc => ?_
  split
  · exact .throw fun _ _ => True.intro
  refine .ite (fun _ => ?_) fun _ => .pure fun _ hc _ => hc
  refine .bind (handleFrame_post (fun _ _ h => by cases h) (fun _ _ => True.intro) fun t payload _ _ => ?_)
    fun ok => .pure fun _ hc => hc
  exact dispatch_false S t payload _

theorem tryDecode_false {P : Conn → Prop} (S : Kept K P) (b : Bytes) :
    Post P (tryDecode K b) (fun r c => r.1 = false → P c) fun _ _ => True :=
  .ite (fun _ => decodePacket_false S b) fun _ => .pure fun _ hc _ => hc

end

section
variable {P : Conn → Prop} {q : Prop} {K : Crypto}

theorem Lax.and {R : Conn → Prop} (L : Lax P) (L' : Lax R) : Lax fun c => P c ∧ R c where
  env e h := ⟨L.env e h.1, L'.env e h.2⟩
  sent l h := ⟨L.sent l h.1, L'.sent l h.2⟩
  lookups l h := ⟨L.lookups l h.1, L'.lookups l h.2⟩
  publicEp ep h := ⟨L.publicEp ep h.1, L'.publicEp ep h.2⟩
  record r hr h := ⟨L.record r hr h.1, L'.record r hr h.2⟩
  store h := ⟨L.store h.1, L'.store h.2⟩

/-- The state, the key exchange, the cipher and the remote id are none of what is overlooked. -/
theorem Lax.of (R : State → Option Dh → Option Bytes → Sha1 → Prop) :
    Lax fun c => R c.curState c.dh c.bf c.remoteId where
  env _ h := h
  sent _ h := h
  lookups _ h := h
  publicEp _ h := h
  record _ _ h := h
  store h := h

theorem Keyed.lax (S : Bytes → Prop) : Lax (Keyed S) where
  env _ h := ⟨h.blank, h.bf, h.record, h.stored⟩
  sent _ h := ⟨h.blank, h.bf, h.record, h.stored⟩
  lookups _ h := ⟨h.blank, h.bf, h.record, h.stored⟩
  publicEp _ h := ⟨h.blank, h.bf, h.record, h.stored⟩
  record r hr h := by
    refine ⟨h.blank, h.bf, ?_, h.stored⟩
    rcases hr with hr | hr
    · exact (congrArg S hr).mpr h.record
    · exact (congrArg S hr).mpr h.blank
  store h := by
    refine ⟨h.blank, h.bf, h.record, fun e he hep => ?_⟩
    rcases PeerDb.mem_put he with rfl | he
    · exact h.record
    · exact h.stored e he hep

/-- The key of a record that is resumed was stored. -/
theorem Keyed.resume {S : Bytes → Prop} {c : Conn} {nid : Sha1} {r : PeerRecord} (h : Keyed S c)
    (hf : c.peers.fetchByEndpoint c.remoteEp = some (nid, r)) :
    Keyed S { c with remoteId := nid, record := r, bf := some r.bfKey, resumed := true } := by
  obtain ⟨e, he, hep, -, rfl⟩ := PeerDb.fetchByEndpoint_mem hf
  have hS : S e.2.bfKey := h.stored e he hep
  refine ⟨h.blank, fun k hk => ?_, hS, h.stored⟩
  exact Option.some.inj hk ▸ hS

theorem Lax.at (L : Lax P) (nid : Sha1) : Lax fun c => P c ∧ c.remoteId = nid :=
  L.and (.of fun _ _ _ r => r = nid)

theorem external_keeps (L : Lax P) : Keeps q P external := by
  refine .get_bind fun c hc => ?_
  split
  · exact .throw fun _ h => .exception (h ▸ hc)
  · exact .modify fun _ h => L.env _ (h ▸ hc)
  · exact .pure fun _ h => h ▸ hc

theorem send_keeps (L : Lax P) (hbf : q → ∀ c, P c → c.bf ≠ none) (t : MessageType) (payload : Bytes) :
    Keeps q P (send t payload) := by
  refine .get_keep fun c hc => .ite (fun _ => ?_) fun _ => .throw fun _ _ => .crash
  split
  · rename_i hnone
    exact .throw fun _ _ => ⟨fun h => absurd h (by decide), fun hq => absurd hnone (hbf hq c hc)⟩
  · exact .bind (external_keeps L) fun _ => .modify fun _ h => L.sent _ h

theorem sendDh_keeps (L : Lax P) (hdh : q → ∀ c, P c → c.dh ≠ none) : Keeps q P sendDh := by
  refine .get_keep fun c hc => ?_
  split
  · rename_i hnone
    exact .throw fun _ _ => ⟨fun h => absurd h (by decide), fun hq => absurd hnone (hdh hq c hc)⟩
  · exact .bind (external_keeps L) fun _ => .modify fun _ h => L.sent _ h

theorem sendAuth_keeps (L : Lax P) (hbf : q → ∀ c, P c → c.bf ≠ none) (hsh : q → ∀ c, P c → HasShared c.dh) :
    Keeps q P (sendAuth K) := by
  refine .get_keep fun c hc => ?_
  have absent (hno : ¬ HasShared c.dh) (t : Conn) : Err q P .absent t :=
    ⟨fun h => absurd h (by decide), fun hq => absurd (hsh hq c hc) hno⟩
  split
  · rename_i hnone
    exact .throw fun t _ => absent (fun ⟨_, h, _⟩ => absurd (hnone.symm.trans h) (by simp)) t
  · rename_i dh hdh
    refine .ite (fun _ => send_keeps L hbf _ _) fun hlen => .throw fun t _ => absent ?_ t
    rintro ⟨dh', h, hlen'⟩
    exact hlen (Option.some.inj (hdh.symm.trans h) ▸ hlen')

theorem sendAuthResponse_keeps (L : Lax P) (hbf : q → ∀ c, P c → c.bf ≠ none) (r : Bool) :
    Keeps q P (sendAuthResponse r) :=
  .get_keep fun _ _ => send_keeps L hbf _ _

theorem storeRecord_keeps (L : Lax P) (nid : Sha1) :
    Keeps q (fun c => P c ∧ c.remoteId = nid) (storeRecord K nid) := by
  refine .get_bind fun c hc => .ite (fun _ => ?_) fun _ => .throw fun _ h => .exception (h ▸ hc)
  refine .named (P := fun c => P c ∧ c.remoteId = nid) ?_ hc
  refine .bind (external_keeps (L.at nid)) fun _ => .modify fun c h => ?_
  obtain ⟨hp, rfl⟩ := h
  exact ⟨L.store hp, rfl⟩

/-- The new record keeps the key of the old one, or has none. -/
def KeyKept (f : Conn → PeerRecord) : Prop := ∀ c, (f c).bfKey = c.record.bfKey ∨ (f c).bfKey = blankKey

theorem record_keeps (L : Lax P) {f : Conn → PeerRecord} (hf : KeyKept f) {E : Stop → Conn → Prop} :
    Post P (Eff.modify fun c => { c with record := f c }) (fun _ => P) E :=
  .modify fun c hc => L.record (f c) (hf c) hc

/-- A changed record, stored under the id of the peer. -/
theorem storeChanged_keeps (L : Lax P) {f : Conn → PeerRecord} (hf : KeyKept f) (b : Bool) (nid : Sha1) :
    Post (fun c => P c ∧ c.remoteId = nid) (Eff.when b do
      Eff.modify fun c => { c with record := f c }
      storeRecord K nid) (fun _ => P) (Err q P) := by
  refine .when (fun _ => .bind (record_keeps (L.at nid) hf) fun _ => ?_) fun _ _ h => h.1
  exact (storeRecord_keeps L nid).conseq (fun _ => id) (fun _ _ h => h.1) fun _ _ => Err.mono fun _ h => h.1

/-- `reset` keeps what the state does not matter to, and ends in `uninit`. -/
theorem reset_post (L : Lax P) {Q : Conn → Prop} (hgo : ∀ c, P c → Q (c.inState .uninit)) :
    Post P (reset K) (fun _ => Q) (Err q P) := by
  refine .get_bind fun c hc => .named (P := fun t => P t ∧ t.remoteId = c.remoteId) ?_ ⟨hc, rfl⟩
  refine .bind (storeChanged_keeps L ?_ _ _) fun _ => ?_
  · exact fun _ => .inl rfl
  · exact .bind (external_keeps L) fun _ => .bind (external_keeps L) fun _ => gotoState_post hgo

theorem close_post (L : Lax P) {Q : Conn → Prop} (hgo : ∀ c, P c → Q (c.inState .uninit))
    (hbf : q → ∀ c, P c → State.receivedDh.value ≤ c.curState.value → c.bf ≠ none) :
    Post P (close K) (fun _ => Q) (Err q P) := by
  refine .get_bind fun c hc => ?_
  have L' : Lax fun t => P t ∧ t.bf = c.bf := L.and (.of fun _ _ bf _ => bf = c.bf)
  refine .bind (R := fun _ => P) (.when (fun hst => ?_) fun _ _ h => h ▸ hc) fun _ => reset_post L hgo
  refine .named (P := fun t => P t ∧ t.bf = c.bf) ?_ ⟨hc, rfl⟩
  refine (send_keeps L' (fun hq t ht => ?_) _ _).conseq (fun _ => id) (fun _ _ h => h.1)
    fun _ _ => Err.mono fun _ h => h.1
  rw [ht.2]
  exact hbf hq c hc (of_decide_eq_true hst)

theorem resendLookups_keeps (L : Lax P) (hbf : q → ∀ c, P c → c.bf ≠ none)
    (ls : List (Sha1 × UInt32 × Option Sha1)) : Keeps q P (resendLookups ls) := by
  induction ls with
  | nil => exact .pure fun _ => id
  | cons l rest ih => exact .bind (send_keeps L hbf _ _) fun _ => ih

/-- `forget_peer` and the reset behind it. -/
theorem forgetPeer_post (L : Lax P) {Q : Conn → Prop} (hgo : ∀ c, P c → Q (c.inState .uninit)) :
    Post P (forgetPeer K) (fun _ => Q) (Err q P) := by
  refine .get_bind fun c hc => .named (P := fun t => P t ∧ t.remoteId = c.remoteId) ?_ ⟨hc, rfl⟩
  refine .bind (storeChanged_keeps L ?_ _ _) fun _ => ?_
  · exact fun _ => .inr rfl
  refine Post.bind (R := fun _ => P) ?_ ?_
  · exact .modify fun c ht => L.record (.blank c.remoteEp) (.inr rfl) ht
  · exact fun _ => reset_post L hgo

theorem handleUpdateRankMsg_keeps (L : Lax P) (hbf : q → ∀ c, P c → c.bf ≠ none) (payload : Bytes) :
    Keeps q P (handleUpdateRankMsg K payload) := by
  refine .ite (fun _ => .pure fun _ => id) fun _ => .get_bind fun c hc => ?_
  refine .bind (R := fun _ => P) ?_ fun _ => .pure fun _ => id
  refine .named (P := fun t => P t ∧ t.remoteId = c.remoteId) (.when (fun _ => ?_) fun _ _ h => h.1) ⟨hc, rfl⟩
  refine .bind (R := fun _ t => P t ∧ t.remoteId = c.remoteId) (record_keeps (L.at _) ?_) fun _ => ?_
  · exact fun _ => .inl rfl
  refine Post.conseq (E := Err q fun t => P t ∧ t.remoteId = c.remoteId)
    (.bind (sendAuthResponse_keeps (L.at _) (fun hq t ht => hbf hq t ht.1) _) fun _ => storeRecord_keeps L _)
    (fun _ => id) (fun _ _ h => h.1) fun _ _ => Err.mono fun _ h => h.1

theorem handleLookupMsg_keeps (L : Lax P) (hbf : q → ∀ c, P c → c.bf ≠ none) (payload : Bytes) :
    Keeps q P (handleLookupMsg K payload) := by
  refine .ite (fun _ => ?_) fun _ => .throw fun _ => .exception
  refine .bind (external_keeps L) fun _ => .bind (record_keeps L ?_) fun _ => .get_keep fun c _ => ?_
  · exact fun _ => .inl rfl
  split
  · exact .throw fun _ => .exception
  · exact .bind (send_keeps L hbf _ _) fun _ => .pure fun _ => id

theorem handleRouteMsg_keeps (L : Lax P) (payload : Bytes) : Keeps q P (handleRouteMsg K payload) := by
  rw [handleRouteMsg]
  split
  · exact .throw fun _ => .exception
  · exact .bind (R := fun _ => P) (.modify fun _ h => L.lookups _ h) fun _ => .pure fun _ => id

theorem handleRequestReverseConnectMsg_keeps (L : Lax P) : Keeps q P handleRequestReverseConnectMsg := by
  refine .bind (external_keeps L) fun _ => .bind (record_keeps L ?_) fun _ => .pure fun _ => id
  exact fun _ => .inl rfl

theorem handleRequestConnectMsg_keeps (L : Lax P) : Keeps q P handleRequestConnectMsg := by
  refine .bind (external_keeps L) fun _ => .bind (record_keeps L ?_) fun _ => .pure fun _ => id
  exact fun _ => .inl rfl

end

/-! ### One datagram -/

/-- A predicate that is carried from stage to stage of a datagram: it leaves no key outside `S`, allows
for the two states a handler goes to on the way and for resuming a stored record, and ends in `F`.
Where `q` is of interest the cipher is there as well. -/
structure Carry (S : Bytes → Prop) (q : Prop) (A F : Conn → Prop) : Prop where
  lax : Lax A
  keyed {c : Conn} : A c → Keyed S c
  uninit {c : Conn} : A c → A (c.inState .uninit)
  connected {c : Conn} : A c → A (c.inState .connected)
  resume {c : Conn} {id : Sha1} {r : PeerRecord} : A c → c.peers.fetchByEndpoint c.remoteEp = some (id, r) →
    A { c with remoteId := id, record := r, bf := some r.bfKey, resumed := true }
  final {c : Conn} : A c → (q → c.bf ≠ none) → F c

def Ciphered (q : Prop) (A : Conn → Prop) (c : Conn) : Prop := A c ∧ (q → c.bf ≠ none)

namespace Carry
variable {K : Crypto} {S : Bytes → Prop} {q : Prop} {A F : Conn → Prop}

theorem laxC (C : Carry S q A F) : Lax (Ciphered q A) := C.lax.and (.of fun _ _ bf _ => q → bf ≠ none)

theorem cipher : q → ∀ c, Ciphered q A c → c.bf ≠ none := fun hq _ h => h.2 hq

theorem err (C : Carry S q A F) {e : Stop} {c : Conn} (h : Err q (Ciphered q A) e c) : Err q F e c :=
  h.mono fun _ hc => C.final hc.1 hc.2

/-- Back in the first state, with all that is carried. -/
def Restarted (q : Prop) (A : Conn → Prop) (c : Conn) : Prop := Ciphered q A c ∧ c.curState = .uninit

theorem toUninit (C : Carry S q A F) (c : Conn) (h : Ciphered q A c) : Restarted q A (c.inState .uninit) :=
  ⟨⟨C.uninit h.1, h.2⟩, rfl⟩

theorem reset (C : Carry S q A F) :
    Post (Ciphered q A) (reset K) (fun _ => Restarted q A) (Err q (Ciphered q A)) :=
  reset_post C.laxC C.toUninit

theorem handleDataMsg (C : Carry S q A F) : Keeps q (Ciphered q A) (handleDataMsg K) := by
  refine .get_keep fun c _ => .ite (fun _ => ?_) fun _ => ?_
  · exact .bind (external_keeps C.laxC) fun _ => .pure fun _ => id
  · refine .bind (R := fun _ => Restarted q A) ?_ fun _ => .pure fun _ h => h.1
    exact close_post C.laxC C.toUninit fun hq t ht _ => ht.2 hq

theorem handleAuthRespMsg (C : Carry S q A F) (first : UInt8) :
    Keeps q (Ciphered q A) (handleAuthRespMsg K first) := by
  refine .ite (fun _ => ?_) fun _ => ?_
  · refine .bind (record_keeps C.laxC ?_) fun _ => ?_
    · exact fun _ => .inl rfl
    refine .bind (R := fun _ => Ciphered q A) (gotoState_post fun c h => ?_) fun _ => .pure fun _ => id
    exact ⟨C.connected h.1, h.2⟩
  · exact .bind C.reset fun _ => .pure fun _ h => h.1

theorem handleCloseMsg (C : Carry S q A F) : Keeps q (Ciphered q A) (handleCloseMsg K) :=
  .bind C.reset fun _ => .pure fun _ h => h.1

/-- What is asked of `handle_auth_msg`: a message that is refused leaves what is carried. -/
def Auth (K : Crypto) (q : Prop) (A F : Conn → Prop) (payload : Bytes) : Prop :=
  Post (Ciphered q A) (handleAuthMsg K payload) (fun ok c => F c ∧ (ok = false → Ciphered q A c)) (Err q F)

/-- An auth message that is accepted leaves what is carried for `G`, from the verification on. -/
theorem handleAuthMsg (C : Carry S q A F) {G : Conn → Prop} (LG : Lax G) (hcipher : q → ∀ c, G c → c.bf ≠ none)
    (hfinal : ∀ c, G c → F c) (hconn : ∀ c, G c → G (c.inState .connected)) {payload : Bytes}
    (hshared : q → ∀ c m, Ciphered q A c → K.readAuth payload = some m → HasShared c.dh)
    (haccept : ∀ c m dh, Ciphered q A c → K.readAuth payload = some m → c.dh = some dh →
      K.verify m.pubk (K.sha1 (dh.sharedKey ++ leBytes 8 m.utc.toNat)) m.sig = true →
      ∀ (nat : Bool) (v : Option (Bytes × AuthMessage)) (r : PeerRecord),
        G { c with behindNat := nat, remoteId := K.sha1 m.pubk, verified := v, record := r }) :
    Auth K q A F payload := by
  unfold Auth Connection.handleAuthMsg
  split
  · exact .throw fun _ h => .exception (C.final h.1 h.2)
  rename_i m hm
  refine .bind (R := fun _ => Ciphered q A) (.modify fun _ h => C.laxC.publicEp _ h) fun _ => .get_bind fun c hc => ?_
  have absent {o : Option Dh} (ho : c.dh = o) (hno : ¬ HasShared o) (t : Conn) : Err q F .absent t :=
    ⟨fun h => absurd h (by decide), fun hq => absurd (ho ▸ hshared hq c m hc hm) hno⟩
  split
  · rename_i hnone
    exact .throw fun t _ => absent hnone (fun ⟨_, h, _⟩ => by cases h) t
  rename_i dh hdh
  refine .ite (fun hlen => .throw fun t _ => absent hdh ?_ t) fun _ => .ite (fun hv => ?_) fun _ => ?_
  · rintro ⟨dh', h, hlen'⟩
    exact hlen (Option.some.inj h ▸ hlen')
  · refine .bind (R := fun _ t => ∃ nat v, t = { c with behindNat := nat, remoteId := K.sha1 m.pubk, verified := v })
      (.modify fun t ht => ?_) fun _ => ?_
    · subst ht
      exact ⟨_, _, rfl⟩
    refine .bind (R := fun _ t => G t ∧ t.remoteId = K.sha1 m.pubk) (.modify fun t ht => ?_) fun _ => ?_
    · obtain ⟨nat, v, rfl⟩ := ht
      exact ⟨haccept c m dh hc hm hdh hv nat v _, rfl⟩
    have L := LG.at (K.sha1 m.pubk)
    have hcipher' (hq : q) (t : Conn) (ht : G t ∧ t.remoteId = K.sha1 m.pubk) : t.bf ≠ none := hcipher hq t ht.1
    refine Post.conseq (Q := fun ok t => ok = true ∧ G t ∧ t.remoteId = K.sha1 m.pubk)
      (E := Err q fun t => G t ∧ t.remoteId = K.sha1 m.pubk) ?_ (fun _ => id)
      (fun ok t ht => ⟨hfinal t ht.2.1, fun hno => absurd (ht.1.symm.trans hno) (by decide)⟩)
      fun _ _ => Err.mono fun t ht => hfinal t ht.1
    refine .bind (sendAuthResponse_keeps L hcipher' _) fun _ => .bind (record_keeps L ?_) fun _ => ?_
    · exact fun _ => .inl rfl
    refine .bind (storeRecord_keeps LG _) fun _ => .bind (external_keeps L) fun _ => ?_
    refine .bind (R := fun _ t => G t ∧ t.remoteId = K.sha1 m.pubk)
      (gotoState_post fun t ht => ⟨hconn t ht.1, ht.2⟩) fun _ => ?_
    exact .bind (resendLookups_keeps L hcipher' _) fun _ => .pure fun _ h => ⟨rfl, h⟩
  · refine .named (P := Ciphered q A) ?_ hc
    refine Post.conseq (Q := fun ok t => ok = false ∧ Ciphered q A t) ?_ (fun _ => id)
      (fun _ t ht => ⟨C.final ht.2.1 ht.2.2, fun _ => ht.2⟩) fun _ _ => C.err
    refine .bind (sendAuthResponse_keeps C.laxC cipher _) fun _ => ?_
    exact .bind (send_keeps C.laxC cipher _ _) fun _ => .pure fun _ h => ⟨rfl, h⟩

theorem dispatch (C : Carry S q A F) {t : MessageType} {payload : Bytes} {first : UInt8}
    (hauth : t = .auth → Auth K q A F payload) :
    Post (Ciphered q A) (dispatch K t payload first) (fun ok c => F c ∧ (ok = false → Ciphered q A c)) (Err q F) := by
  have weaken {m : Handler Bool} (h : Keeps q (Ciphered q A) m) :
      Post (Ciphered q A) m (fun ok c => F c ∧ (ok = false → Ciphered q A c)) (Err q F) :=
    h.conseq (fun _ => id) (fun _ c hc => ⟨C.final hc.1 hc.2, fun _ => hc⟩) fun _ _ => C.err
  cases t with
  | data => exact weaken C.handleDataMsg
  | auth => exact hauth rfl
  | authResp => exact weaken (C.handleAuthRespMsg first)
  | routeLookup => exact weaken (handleLookupMsg_keeps C.laxC cipher payload)
  | route => exact weaken (handleRouteMsg_keeps C.laxC payload)
  | close => exact weaken C.handleCloseMsg
  | updateRank => exact weaken (handleUpdateRankMsg_keeps C.laxC cipher payload)
  | reqReverseConnect => exact weaken (handleRequestReverseConnectMsg_keeps C.laxC)
  | reqConnect => exact weaken (handleRequestConnectMsg_keeps C.laxC)

/-- Decoding one stage. What cannot be decoded is the next stage. -/
theorem decodePacket (C : Carry S q A F) {b d : Bytes} (hauth : ∀ payload, OpensAuth K S b payload → Auth K q A F payload)
    (hd : Stage K S b d) (hlen : d.length % 8 = 0) :
    Post (Ciphered q A) (decodePacket K d)
      (fun r c => F c ∧ (r.1 = false → Ciphered q A c ∧ Stage K S b r.2)) (Err q F) := by
  refine .bind (record_keeps C.laxC ?_) fun _ => ?_
  · exact fun _ => .inl rfl
  refine .get_keep fun c hc => ?_
  split
  · rename_i hnone
    exact .throw fun _ _ => ⟨fun h => absurd h (by decide), fun hq => absurd hnone (hc.2 hq)⟩
  rename_i key hkey
  have hS : S key := (C.keyed hc.1).bf key hkey
  refine .ite (fun hsum => ?_) fun _ => .pure fun t ht => ⟨C.final ht.1 ht.2, fun _ => ⟨ht, hd.decrypted hlen hS⟩⟩
  refine .bind (handleFrame_post ?_ (fun _ _ => .crash) fun t payload htype hpay => C.dispatch fun ht =>
    hauth payload ⟨d, key, hd, hlen, hS, hsum, ht ▸ htype, hpay⟩) fun ok => ?_
  · exact fun _ h => ⟨C.final h.1 h.2, fun _ => h⟩
  exact .pure fun t ht => ⟨ht.1, fun hok => ⟨ht.2 hok, hd.decrypted hlen hS⟩⟩

theorem tryDecode (C : Carry S q A F) {b d : Bytes} (hauth : ∀ payload, OpensAuth K S b payload → Auth K q A F payload)
    (hd : Stage K S b d) :
    Post (Ciphered q A) (tryDecode K d)
      (fun r c => F c ∧ (r.1 = false → Ciphered q A c ∧ Stage K S b r.2)) (Err q F) :=
  .ite (fun hlen => C.decodePacket hauth hd hlen) fun _ => .pure fun _ h => ⟨C.final h.1 h.2, fun _ => ⟨h, hd⟩⟩

def Start (K : Crypto) (q : Prop) (A F : Conn → Prop) : Prop :=
  ∀ d, Post (fun c => A c ∧ c.curState = .uninit) (startDh K d) (fun _ => F) (Err q F)

/-- The stored record of the endpoint is resumed. -/
theorem resumed (C : Carry S q A F) {nid : Sha1} {r : PeerRecord} {m : Handler Unit}
    (hm : Post (Ciphered q A) m (fun _ => F) (Err q F)) :
    Post (fun c => A c ∧ c.peers.fetchByEndpoint c.remoteEp = some (nid, r)) (do
      Eff.modify fun c => { c with remoteId := nid, record := r, bf := some r.bfKey, resumed := true }
      updateDistIndex
      Eff.modify fun c => { c with record := { c.record with connected := true } }
      storeRecord K nid
      gotoState .connected
      m) (fun _ => F) (Err q F) := by
  refine .bind (R := fun _ c => Ciphered q A c ∧ c.remoteId = nid) (.modify fun c hc => ?_) fun _ => ?_
  · exact ⟨⟨C.resume hc.1 hc.2, fun _ => Option.some_ne_none _⟩, rfl⟩
  have stops {e : Stop} {c : Conn} (h : Err q (fun c => Ciphered q A c ∧ c.remoteId = nid) e c) : Err q F e c :=
    C.err (h.mono fun _ hc => hc.1)
  refine .bind ((external_keeps (C.laxC.at nid)).conseq (fun _ => id) (fun _ _ => id) fun _ _ => stops) fun _ => ?_
  refine .bind (record_keeps (C.laxC.at nid) ?_) fun _ => ?_
  · exact fun _ => .inl rfl
  refine .bind ((storeRecord_keeps C.laxC nid).conseq (fun _ => id) (fun _ _ => id) fun _ _ => stops) fun _ => ?_
  exact .bind (gotoState_post fun c h => ⟨C.connected h.1.1, h.1.2⟩) fun _ => hm

/-- `handle_uninit` and `handle_connected` call each other with one stage after the other. -/
theorem handleUninit_connected (C : Carry S q A F) {b : Bytes}
    (hauth : ∀ payload, OpensAuth K S b payload → Auth K q A F payload) (hstart : Start K q A F) (fuel : Nat) {d : Bytes}
    (hd : Stage K S b d) :
    Post (fun c => A c ∧ c.curState = .uninit) (handleUninit K fuel d) (fun _ => F) (Err q F) ∧
    Post (Ciphered q A) (handleConnected K fuel d) (fun _ => F) (Err q F) := by
  induction fuel generalizing d with
  | zero => exact ⟨.throw fun _ _ => .overflow, .throw fun _ _ => .overflow⟩
  | succ fuel ih =>
    constructor
    · rw [Connection.handleUninit]
      refine .get_bind fun c hc => ?_
      split
      · rename_i nid r hfetch
        exact (C.resumed (ih hd).2).named ⟨hc.1, hfetch⟩
      · exact (hstart d).named hc
    · rw [Connection.handleConnected]
      refine .bind (C.tryDecode hauth hd) fun r => ?_
      refine .ite (fun _ => .pure fun _ h => h.1) fun hr => ?_
      have hno : r.1 = false := Bool.eq_false_iff.mpr hr
      -- the stage is a fact about bytes, so it is taken out of the state before the next call
      intro c hc
      obtain ⟨hW, hstage⟩ := hc.2 hno
      refine Post.bind (R := fun _ c => A c ∧ c.curState = .uninit) ?_ (fun _ => (ih hstage).1) c hW
      exact (forgetPeer_post C.laxC C.toUninit).conseq (fun _ => id) (fun _ _ h => ⟨h.1.1, h.2⟩) fun _ _ => C.err

/-- A frame that is decoded, or given up for a new start. -/
theorem decodeOrRestart (C : Carry S q A F) {b : Bytes}
    (hauth : ∀ payload, OpensAuth K S b payload → Auth K q A F payload) (hlen : b.length % 8 = 0)
    (restart : Bytes → Handler Unit)
    (hre : ∀ d, Stage K S b d → Post (Ciphered q A) (restart d) (fun _ => F) (Err q F)) :
    Post (Ciphered q A) (do
      let r ← Connection.decodePacket K b
      if r.1 then pure () else restart r.2) (fun _ => F) (Err q F) := by
  refine .bind (C.decodePacket hauth .received hlen) fun r => .ite (fun _ => .pure fun _ h => h.1) fun hr => ?_
  intro c hc
  obtain ⟨hW, hstage⟩ := hc.2 (Bool.eq_false_iff.mpr hr)
  exact hre r.2 hstage c hW

/-- `handle_packet`, where the exchange of keys is left to the predicate. -/
theorem handlePacket (C : Carry S q A F) {b : Bytes}
    (hauth : ∀ payload, OpensAuth K S b payload → Auth K q A F payload) (hstart : Start K q A F) (fuel : Nat) {c₀ : Conn}
    (hA : c₀.curState ≠ .generatedDh → A c₀)
    (hbf : State.receivedDh.value ≤ c₀.curState.value → q → c₀.bf ≠ none) (hF : F c₀)
    (hgen : c₀.curState = .generatedDh →
      Post (fun c => c = c₀) (handleGeneratedDh K b) (fun _ => F) (Err q F))
    (hrecv : c₀.curState = .receivedDh → isDh b = true →
      Post (fun c => c = c₀) (do sendDh; processDh K b; sendAuth K) (fun _ => F) (Err q F)) :
    Post (fun c => c = c₀) (handlePacket K fuel b) (fun _ => F) (Err q F) := by
  have huninit {d : Bytes} (hd : Stage K S b d) := (C.handleUninit_connected hauth hstart fuel hd).1
  have hreset {d : Bytes} (hd : Stage K S b d) :
      Post (Ciphered q A) (do Connection.reset K; handleUninit K fuel d) (fun _ => F) (Err q F) :=
    .bind (C.reset.conseq (fun _ => id) (fun _ _ h => ⟨h.1.1, h.2⟩) fun _ _ => C.err) fun _ => huninit hd
  refine .get_bind fun c hc => ?_
  subst hc
  have hW (hst : c.curState ≠ .generatedDh) (hv : State.receivedDh.value ≤ c.curState.value) : Ciphered q A c :=
    ⟨hA hst, hbf hv⟩
  split
  · exact .pure fun _ h => h ▸ hF
  · rename_i hst
    exact (huninit .received).named ⟨hA (by rw [hst]; decide), hst⟩
  · rename_i hst
    exact hgen hst
  · rename_i hst
    refine .ite (fun hdh => hrecv hst hdh) fun _ => .ite (fun hlen => ?_) fun _ => .pure fun _ h => h ▸ hF
    refine (C.decodeOrRestart hauth hlen (fun d => do gotoState .uninit; handleUninit K fuel d)
      fun d hd => ?_).named (hW (by rw [hst]; decide) (by rw [hst]))
    exact .bind (gotoState_post fun t ht => ⟨C.uninit ht.1, rfl⟩) fun _ => huninit hd
  · rename_i hst
    have hc := hW (by rw [hst]; decide) (by rw [hst]; decide)
    refine .ite (fun hlen => ?_) fun _ => .ite (fun _ => ?_) fun _ => .pure fun _ h => h ▸ hF
    · exact (C.decodeOrRestart hauth hlen (fun d => do Connection.reset K; handleUninit K fuel d)
        fun d hd => hreset hd).named hc
    · exact (hreset .received).named hc
  · rename_i hst
    exact ((C.handleUninit_connected hauth hstart fuel .received).2).named
      (hW (by rw [hst]; decide) (by rw [hst]; decide))

end Carry
end Tornet.Connection
