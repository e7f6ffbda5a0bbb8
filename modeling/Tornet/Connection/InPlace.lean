import Tornet.Connection.Retry

/-! `decode_packet` decrypts the datagram where it lies: what one record of an endpoint leaves is what the next one finds. -/
namespace Tornet.Connection
open Library Eff

/-- An auth message whose signature is not good for the key exchange. -/
def badSignature (K : Crypto) (dh : Option Dh) (payload : Bytes) : Bool :=
  match K.readAuth payload with
  | none => false
  | some m =>
    match dh with
    | none => false
    | some x => x.sharedKey.length = 56 && !K.verify m.pubk (K.sha1 (x.sharedKey ++ leBytes 8 m.utc.toNat)) m.sig

/-- The messages whose handlers return `false` to a connected peer: a bad signature, an auth response of 0, and a rank that is
too short. -/
def refuses (K : Crypto) (dh : Option Dh) (t : MessageType) (payload : Bytes) (first : UInt8) : Bool :=
  match t with
  | .auth => badSignature K dh payload
  | .authResp => first = 0
  | .updateRank => payload.length < 16
  | _ => false

/-- `decode_packet` returns `false` for these bytes once they are decrypted. -/
def rejects (K : Crypto) (dh : Option Dh) (d : Bytes) : Bool :=
  !checksumOk K d ||
    match typeOf d, payloadOf d ((d.getD 3 0).toNat % 8) with
    | some t, some payload => refuses K dh t payload (d.getD 4 0)
    | _, _ => false

/-- The datagram after the keys of these records, if each of them in turn is turned down. -/
def inTurn (K : Crypto) (dh : Option Dh) : List (Sha1 × PeerRecord) → Bytes → Option Bytes
  | [], b => some b
  | e :: rest, b =>
    if rejects K dh (K.decrypt e.2.bfKey b) then inTurn K dh rest (K.decrypt e.2.bfKey b) else none

/-- A connection that has just resumed a record. -/
structure Opened (K : Crypto) (key : Bytes) (dh : Option Dh) (id : Sha1) (c : Conn) : Prop extends Calm K c where
  bf : c.bf = some key
  dh : c.dh = dh
  remoteId : c.remoteId = id
  curState : c.curState = .connected

section
variable {K : Crypto} {key : Bytes} {dh : Option Dh} {id : Sha1}

theorem Opened.external : Returns (Opened K key dh id) external := external_returns fun _ hc => hc.faults

theorem Opened.send {payload : Bytes} (hlen : payload.length ≤ 2044) (t : MessageType) :
    Returns (Opened K key dh id) (send t payload) := by
  refine .get_bind fun c hc => ?_
  rw [if_pos hlen, hc.bf]
  refine .bind (Opened.external.named hc) fun _ => .modify fun t ht => ?_
  exact ⟨⟨ht.faults, ht.holds⟩, ht.bf, ht.dh, ht.remoteId, ht.curState⟩

/-- A record that passes the check of `store` is resumed. -/
theorem Opened.resume {r : PeerRecord} (hid : K.sha1 r.publicKey = id) :
    Post (fun c => c.env.faults = none ∧ c.dh = dh) (resume K id r) (fun _ => Opened K r.bfKey dh id) fun _ _ => False := by
  -- up to `goto_state` the connection is as `Opened` has it but for its state
  have hexternal : Returns (fun c => Calm K c ∧ K.sha1 c.record.publicKey = id ∧ c.bf = some r.bfKey ∧ c.dh = dh ∧
      c.remoteId = id) Connection.external := external_returns fun _ ht => ht.1.faults
  refine .bind (R := fun _ c => Calm K c ∧ K.sha1 c.record.publicKey = id ∧ c.bf = some r.bfKey ∧ c.dh = dh ∧
    c.remoteId = id) (.modify fun c hc => ⟨⟨hc.1, fun _ => hid⟩, hid, rfl, hc.2, rfl⟩) fun _ => .bind hexternal fun _ => ?_
  refine .bind (R := fun _ c => Calm K c ∧ K.sha1 c.record.publicKey = id ∧ c.bf = some r.bfKey ∧ c.dh = dh ∧
    c.remoteId = id) (.modify fun c hc => ⟨⟨hc.1.faults, hc.1.holds⟩, hc.2⟩) fun _ => ?_
  refine .bind (R := fun _ c => Calm K c ∧ K.sha1 c.record.publicKey = id ∧ c.bf = some r.bfKey ∧ c.dh = dh ∧
    c.remoteId = id) (.get_bind fun c hc => ?_) fun _ => ?_
  · rw [if_pos hc.2.1]
    exact .bind (hexternal.named hc) fun _ => .modify fun t ht => ⟨⟨ht.1.faults, ht.1.holds⟩, ht.2⟩
  · exact .modify fun t ht => ⟨⟨ht.1.faults, ht.1.holds⟩, ht.2.2.1, ht.2.2.2.1, ht.2.2.2.2, rfl⟩

/-- A message that is refused is refused without an exception. -/
theorem Opened.refused {t : MessageType} {payload : Bytes} {first : UInt8} (h : refuses K dh t payload first = true) :
    Post (Opened K key dh id) (dispatch K t payload first) (fun ok _ => ok = false) fun _ _ => False := by
  have rejected {P : Conn → Prop} : Post P (pure false : Handler Bool) (fun ok _ => ok = false) fun _ _ => False :=
    .pure fun _ _ => rfl
  cases t with
  | auth =>
    have hbad : badSignature K dh payload = true := h
    rw [badSignature] at hbad
    split at hbad
    · cases hbad
    rename_i m hm
    split at hbad
    · cases hbad
    rename_i x
    obtain ⟨hlen, hv⟩ := Bool.and_eq_true_iff.mp hbad
    rw [dispatch, handleAuthMsg, hm]
    refine .bind (R := fun _ => Opened K key (some x) id) (.modify fun c hc => ?_) fun _ => .get_bind fun c hc => ?_
    · exact ⟨⟨hc.faults, hc.holds⟩, hc.bf, hc.dh, hc.remoteId, hc.curState⟩
    rw [hc.dh]
    have hresp : Returns (Opened K key (some x) id) (sendAuthResponse false) :=
      .get_keep fun _ _ => Opened.send (Nat.le_of_ble_eq_true rfl) _
    refine .ite (fun hne => absurd (of_decide_eq_true hlen) hne) fun _ => .ite (fun hgood => ?_) fun _ => ?_
    · rw [hgood] at hv
      cases hv
    · exact .bind (hresp.named hc) fun _ => .bind (Opened.send (by decide) _) fun _ => rejected
  | authResp =>
    have hfirst : first = 0 := of_decide_eq_true h
    rw [dispatch, handleAuthRespMsg, if_neg (not_not.mpr hfirst)]
    exact .bind (Calm.reset.conseq (fun _ hc => hc.toCalm) (fun _ _ hc => hc) fun _ _ hf => hf) fun _ => rejected
  | updateRank =>
    rw [dispatch, handleUpdateRankMsg, if_pos (of_decide_eq_true h)]
    exact rejected
  | data => cases h
  | routeLookup => cases h
  | route => cases h
  | close => cases h
  | reqReverseConnect => cases h
  | reqConnect => cases h

/-- No other message is. -/
theorem Opened.accepted {t : MessageType} {payload : Bytes} {first : UInt8} (h : refuses K dh t payload first = false) :
    Post (Opened K key dh id) (dispatch K t payload first) (fun ok _ => ok = true) fun _ _ => True := by
  have done {P : Conn → Prop} : Post P (pure true : Handler Bool) (fun ok _ => ok = true) fun _ _ => True :=
    .pure fun _ _ => rfl
  cases t with
  | data =>
    refine .get_bind fun c hc => ?_
    rw [if_pos hc.curState]
    exact .skip fun _ => done
  | auth =>
    rw [dispatch, handleAuthMsg]
    split
    · exact .throw fun _ _ => True.intro
    rename_i m hm
    refine .bind (R := fun _ => Opened K key dh id) (.modify fun c hc => ?_) fun _ => .get_bind fun c hc => ?_
    · exact ⟨⟨hc.faults, hc.holds⟩, hc.bf, hc.dh, hc.remoteId, hc.curState⟩
    rw [hc.dh]
    split
    · exact .throw fun _ _ => True.intro
    rename_i x
    refine .ite (fun _ => .throw fun _ _ => True.intro) fun hlen => .ite (fun _ => ?_) fun hv => ?_
    · refine .skip fun _ => .skip fun _ => .skip fun _ => .skip fun _ => .skip fun _ => .skip fun _ => ?_
      exact .skip fun _ => .skip fun _ => done
    · have hbad : badSignature K (some x) payload = false := h
      simp [badSignature, hm, not_not.mp hlen, hv] at hbad
  | authResp =>
    have hfirst : first ≠ 0 := of_decide_eq_false h
    rw [dispatch, handleAuthRespMsg, if_pos hfirst]
    exact .skip fun _ => .skip fun _ => done
  | routeLookup =>
    refine .ite (fun _ => .skip fun _ => .skip fun _ => .get_keep (P := fun _ => True) fun _ _ => ?_)
      fun _ => .throw fun _ _ => True.intro
    split
    · exact .throw fun _ _ => True.intro
    · exact .skip fun _ => done
  | route =>
    rw [dispatch, handleRouteMsg]
    split
    · exact .throw fun _ _ => True.intro
    · exact .skip fun _ => done
  | close => exact .skip fun _ => done
  | updateRank =>
    rw [dispatch, handleUpdateRankMsg, if_neg (of_decide_eq_false h)]
    exact .get_keep fun c hc => .skip fun _ => done
  | reqReverseConnect => exact .skip fun _ => .skip fun _ => done
  | reqConnect => exact .skip fun _ => .skip fun _ => done

/-- `decode_packet` of a resumed record: the bytes are decrypted, and it is `false` where `rejects` says so. -/
theorem Opened.decodePacket_rejects {b : Bytes} (h : rejects K dh (K.decrypt key b) = true) :
    Post (Opened K key dh id) (decodePacket K b) (fun r _ => r = (false, K.decrypt key b)) fun _ _ => False := by
  refine .bind (R := fun _ => Opened K key dh id) (.modify fun c hc => ?_) fun _ => .get_bind fun c hc => ?_
  · exact ⟨⟨hc.faults, hc.holds⟩, hc.bf, hc.dh, hc.remoteId, hc.curState⟩
  rw [hc.bf]
  refine .ite (fun hsum => ?_) fun _ => .pure fun _ _ => rfl
  rw [rejects, hsum, Bool.not_true, Bool.false_or] at h
  split at h
  · rename_i t payload htype hpayload
    rw [handleFrame, htype]
    simp only [hpayload]
    exact .bind ((Opened.refused h).named hc) fun ok => .pure fun _ hok => by rw [hok]
  · cases h

theorem Opened.decodePacket_accepts {b : Bytes} (h : rejects K dh (K.decrypt key b) = false) :
    Post (Opened K key dh id) (decodePacket K b) (fun r _ => r.1 = true) fun _ _ => True := by
  refine .bind (R := fun _ => Opened K key dh id) (.modify fun c hc => ?_) fun _ => .get_bind fun c hc => ?_
  · exact ⟨⟨hc.faults, hc.holds⟩, hc.bf, hc.dh, hc.remoteId, hc.curState⟩
  rw [hc.bf]
  obtain ⟨hsum, hrest⟩ := Bool.or_eq_false_iff.mp h
  refine .ite (fun _ => ?_) fun hno => ?_
  · refine .bind (handleFrame_post (Q := fun ok _ => ok = true) (fun _ _ => rfl) (fun _ _ => True.intro)
      fun t payload htype hpayload => ?_) fun ok => .pure fun _ hok => hok
    simp only [htype, hpayload] at hrest
    exact (Opened.accepted hrest).named hc
  · rw [Bool.not_eq_false'] at hsum
    exact absurd hsum hno

end

section
variable {K : Crypto} {ep : Endpoint} {node id : Sha1} {dh : Option Dh} {e : Sha1 × PeerRecord} {es : List (Sha1 × PeerRecord)}
  {b d : Bytes} {c u : Conn}

/-- The first record of the endpoint is tried where no outside call throws. -/
theorem Listed.opened (hc : Listed K ep node dh (e :: es) c) (hcalm : c.env.faults = none) :
    c.peers.fetchByEndpoint c.remoteEp = some (e.1 ^^^ node, e.2) ∧
    ∃ t, Connection.resume K (e.1 ^^^ node) e.2 c = (.ok (), t) ∧ Opened K e.2.bfKey dh (e.1 ^^^ node) t := by
  have hfetch : c.peers.fetchByEndpoint c.remoteEp = some (e.1 ^^^ node, e.2) := by
    rw [hc.remoteEp, PeerDb.fetchByEndpoint_eq, hc.linked, hc.nodeId]
    rfl
  refine ⟨hfetch, ?_⟩
  obtain ⟨-, -, -, -, -, hid, -⟩ := hc.fetch hfetch
  have hopen := @Opened.resume K dh _ _ hid c ⟨hcalm, hc.dh⟩
  rcases hres : Connection.resume K (e.1 ^^^ node) e.2 c with ⟨s | v, t⟩
  · rw [hres] at hopen
    exact hopen.elim
  · rw [hres] at hopen
    exact ⟨t, rfl, hopen⟩

/-- A round fails exactly where the bytes that the key makes of the datagram are turned down, and these are what it leaves. -/
theorem round_iff (hc : Listed K ep node dh (e :: es) c) (hcalm : c.env.faults = none) (hmod : b.length % 8 = 0) :
    (∃ u, round K b c = some (id, d, u)) ↔
      id = e.1 ^^^ node ∧ d = K.decrypt e.2.bfKey b ∧ rejects K dh (K.decrypt e.2.bfKey b) = true := by
  obtain ⟨hfetch, t, hres, hopen⟩ := hc.opened hcalm
  have hattempt : attempt K b (e.1 ^^^ node) e.2 c = decodePacket K b t := by
    rw [attempt, bind_ok hres, tryDecode, if_pos hmod]
  constructor
  · rintro ⟨u, hround⟩
    obtain ⟨r, hf, hfail⟩ := round_eq_some hround
    cases hfetch.symm.trans hf
    obtain ⟨v, ha, -⟩ := failed_eq_some hfail
    rw [hattempt] at ha
    cases hrej : rejects K dh (K.decrypt e.2.bfKey b) with
    | true =>
      have hdec := Opened.decodePacket_rejects hrej t hopen
      rw [ha] at hdec
      exact ⟨rfl, congrArg Prod.snd hdec, rfl⟩
    | false =>
      have hdec := Opened.decodePacket_accepts hrej t hopen
      rw [ha] at hdec
      exact absurd hdec Bool.false_ne_true
  · rintro ⟨rfl, rfl, hrej⟩
    have hdec := Opened.decodePacket_rejects hrej t hopen
    rcases hd : decodePacket K b t with ⟨s | r, v⟩
    · rw [hd] at hdec
      exact hdec.elim
    rw [hd] at hdec
    obtain rfl : r = (false, K.decrypt e.2.bfKey b) := hdec
    obtain ⟨-, -, -, -, -, hid, -⟩ := hc.fetch hfetch
    cases hround : round K b c with
    | some p =>
      obtain ⟨id', d', u⟩ := p
      obtain ⟨r, hf, hfail⟩ := round_eq_some hround
      cases hfetch.symm.trans hf
      obtain ⟨v', ha, -⟩ := failed_eq_some hfail
      cases (ha.symm.trans hattempt).trans hd
      exact ⟨u, rfl⟩
    | none =>
      have hno := Calm.failed ((attempt_calm b hid).named hcalm) Calm.forgetPeer (round_eq_none hround hfetch)
      exact absurd (hattempt.trans hd) (hno _ v)

private theorem inTurn_length (hlen : ∀ key p, (K.decrypt key p).length = p.length) (h : inTurn K dh es b = some d) :
    d.length = b.length := by
  induction es generalizing b with
  | nil =>
    cases h
    rfl
  | cons e es ih =>
    rw [inTurn] at h
    split_ifs at h
    rw [ih h, hlen]

/-- The rounds turn down the records one after the other, each with what the one before has left. -/
theorem rounds_inTurn (hep : ep ≠ {}) (hlen : ∀ key p, (K.decrypt key p).length = p.length) {n : Nat}
    (hc : Listed K ep node dh es c) (hcalm : c.env.faults = none) (hmod : b.length % 8 = 0) :
    ∃ k, inTurn K dh (es.take k) b = some (rounds K n b c).2.1 ∧ Listed K ep node dh (es.drop k) (rounds K n b c).2.2 := by
  induction n generalizing es b c with
  | zero => exact ⟨0, rfl, hc⟩
  | succ n ih =>
    cases hround : round K b c with
    | none =>
      have heq : rounds K (n + 1) b c = ([], b, c) := by rw [rounds, hround]
      rw [heq]
      exact ⟨0, rfl, hc⟩
    | some p =>
      obtain ⟨id, d, u⟩ := p
      have heq : rounds K (n + 1) b c = (id :: (rounds K n d u).1, (rounds K n d u).2) := by
        rw [rounds, hround]
      obtain ⟨e, rest, rfl, rfl, hu⟩ := round_listed hep hc hround
      obtain ⟨-, rfl, hrej⟩ := (round_iff hc hcalm hmod).mp ⟨u, hround⟩
      obtain ⟨k, hturn, hlisted⟩ := ih hu (round_calm hc hcalm hround) ((hlen _ _).symm ▸ hmod)
      rw [heq]
      refine ⟨k + 1, ?_, hlisted⟩
      rw [List.take_succ_cons, inTurn, if_pos hrej]
      exact hturn

/-- The other way round: where the first records are turned down in turn, the recursion comes to the rest. -/
theorem rounds_of_inTurn (hep : ep ≠ {}) (hlen : ∀ key p, (K.decrypt key p).length = p.length) {n : Nat}
    {pre : List (Sha1 × PeerRecord)} (hc : Listed K ep node dh (pre ++ es) c) (hcalm : c.env.faults = none)
    (hmod : b.length % 8 = 0) (hturn : inTurn K dh pre b = some d) (hn : pre.length ≤ n) :
    ∃ u, Listed K ep node dh es u ∧ u.env.faults = none ∧ (rounds K n b c).2 = (rounds K (n - pre.length) d u).2 ∧
      ∀ fuel, handleUninit K (fuel + 2 * pre.length) b c = handleUninit K fuel d u := by
  induction pre generalizing n b c with
  | nil =>
    cases hturn
    exact ⟨c, hc, hcalm, rfl, fun _ => rfl⟩
  | cons e pre ih =>
    rw [inTurn] at hturn
    split_ifs at hturn with hrej
    obtain ⟨u, hround⟩ := (round_iff hc hcalm hmod).mpr ⟨rfl, rfl, hrej⟩
    obtain ⟨e', rest, heq, -, hu⟩ := round_listed hep hc hround
    cases heq
    cases n with
    | zero => cases hn
    | succ n =>
      obtain ⟨v, hv, hvcalm, hrest, hfuel⟩ := ih hu (round_calm hc hcalm hround) ((hlen _ _).symm ▸ hmod) hturn
        (Nat.le_of_succ_le_succ hn)
      refine ⟨v, hv, hvcalm, ?_, fun fuel => ?_⟩
      · have heq : rounds K (n + 1) b c = ((e.1 ^^^ node) :: (rounds K n (K.decrypt e.2.bfKey b) u).1,
            (rounds K n (K.decrypt e.2.bfKey b) u).2) := by
          rw [rounds, hround]
        rw [heq, List.length_cons, Nat.add_sub_add_right]
        exact hrest
      · rw [List.length_cons, Nat.mul_add, ← Nat.add_assoc, handleUninit_round hround]
        exact hfuel fuel

/-- The connection handles the message of a data frame, and stays connected. -/
theorem Opened.data {key payload : Bytes} (hp : payload.length ≤ 2044) (hdec : K.decrypt key b = plainFrame K .data payload) :
    Post (Opened K key dh id) (decodePacket K b) (fun r c => r.1 = true ∧ c.curState = .connected ∧ c.remoteId = id)
      fun _ _ => False := by
  refine .bind (R := fun _ => Opened K key dh id) (.modify fun c hc => ?_) fun _ => .get_bind fun c hc => ?_
  · exact ⟨⟨hc.faults, hc.holds⟩, hc.bf, hc.dh, hc.remoteId, hc.curState⟩
  rw [hc.bf]
  simp only [hdec]
  rw [if_pos (plainFrame_checksum K .data payload), handleFrame, plainFrame_type]
  simp only [plainFrame_payload K .data payload hp]
  have hmsg : Post (Opened K key dh id) (handleDataMsg K)
      (fun ok c => ok = true ∧ c.curState = .connected ∧ c.remoteId = id) fun _ _ => False := by
    refine .get_bind fun c hc => ?_
    rw [if_pos hc.curState]
    exact .bind (Opened.external.named hc) fun _ => .pure fun _ ht => ⟨rfl, ht.curState, ht.remoteId⟩
  exact .bind (hmsg.named hc) fun ok => .pure fun _ ht => ht

end

/-- The last record that is tried, and the datagram as it finds it. -/
def lastRecord (K : Crypto) (b : Bytes) (c : Conn) : Option (Bytes × Sha1 × PeerRecord) :=
  let r := (rounds K c.peers.entries.length b c).2
  (r.2.peers.fetchByEndpoint r.2.remoteEp).map fun p => (r.1, p)

/-- `handle_packet` ends in state connected as this peer, whose key has made the data frame of the message from the datagram. -/
structure Delivered (K : Crypto) (payload : Bytes) (id : Sha1) (b : Bytes) (c : Conn) : Prop where
  connected : ∃ n t, (∀ fuel, handlePacket K (fuel + n) b c = (.ok (), t)) ∧ t.curState = .connected ∧ t.remoteId = id
  handled : ∃ d r, lastRecord K b c = some (d, id, r) ∧ K.decrypt r.bfKey d = plainFrame K .data payload

section
variable {K : Crypto} {ep : Endpoint} {node id : Sha1} {dh : Option Dh} {e : Sha1 × PeerRecord} {es : List (Sha1 × PeerRecord)}
  {b payload : Bytes} {c u : Conn}

private theorem rounds_none (h : round K b c = none) (n : Nat) : rounds K n b c = ([], b, c) := by
  cases n with
  | zero => rfl
  | succ n => rw [rounds, h]

/-- A key that opens the datagram as it is. -/
theorem round_data (hc : Listed K ep node dh (e :: es) c) (hcalm : c.env.faults = none) (hmod : b.length % 8 = 0)
    (hp : payload.length ≤ 2044) (hdec : K.decrypt e.2.bfKey b = plainFrame K .data payload) : round K b c = none := by
  cases hround : round K b c with
  | none => rfl
  | some p =>
    obtain ⟨id, d, u⟩ := p
    obtain ⟨-, -, hrej⟩ := (round_iff hc hcalm hmod).mp ⟨u, hround⟩
    rw [rejects, hdec, plainFrame_checksum, plainFrame_payload K .data payload hp, plainFrame_type] at hrej
    cases hrej

theorem handleUninit_data (hc : Listed K ep node dh (e :: es) c) (hcalm : c.env.faults = none) (hmod : b.length % 8 = 0)
    (hp : payload.length ≤ 2044) (hdec : K.decrypt e.2.bfKey b = plainFrame K .data payload) :
    ∃ t, (∀ fuel, handleUninit K (fuel + 2) b c = (.ok (), t)) ∧ t.curState = .connected ∧ t.remoteId = e.1 ^^^ node := by
  obtain ⟨hfetch, t, hres, hopen⟩ := hc.opened hcalm
  have hattempt : attempt K b (e.1 ^^^ node) e.2 c = decodePacket K b t := by
    rw [attempt, bind_ok hres, tryDecode, if_pos hmod]
  have hdata := Opened.data hp hdec t hopen
  rcases hd : decodePacket K b t with ⟨s | ⟨ok, d⟩, v⟩
  · rw [hd] at hdata
    exact hdata.elim
  rw [hd] at hdata
  obtain ⟨rfl, hstate, hid⟩ := hdata
  refine ⟨v, fun fuel => ?_, hstate, hid⟩
  rw [handleUninit_eq hfetch, retry, bind_ok (hattempt.trans hd)]
  rfl

end

/-- A data frame that `send` encrypts with the key of a record of the endpoint is delivered to a connection in state uninit
exactly where every record before it in the index is turned down in turn, each with the bytes the one before has left, and
all these decryptions together give the datagram back. -/
theorem data_delivered_iff {K : Crypto} {encrypt : Bytes → Bytes → Bytes}
    (hdecLen : ∀ key p, (K.decrypt key p).length = p.length) (hencLen : ∀ key p, (encrypt key p).length = p.length)
    (hdec : ∀ key p, p.length % 8 = 0 → K.decrypt key (encrypt key p) = p)
    (henc : ∀ key p, p.length % 8 = 0 → encrypt key (K.decrypt key p) = p) {c : Conn} (hsorted : c.peers.Sorted)
    (hfit : Fit K c.peers) (hep : c.remoteEp ≠ {}) (huninit : c.curState = .uninit) (hcalm : c.env.faults = none)
    {e : Sha1 × PeerRecord} (he : e ∈ c.peers.linked c.remoteEp) {payload : Bytes} (hp : payload.length ≤ 2044) (r : Nat) :
    Delivered K payload (e.1 ^^^ c.peers.nodeId) ((Outgoing.frame .data payload e.2.bfKey).datagram K encrypt r) c ↔
      ∃ pre post, c.peers.linked c.remoteEp = pre ++ e :: post ∧
        inTurn K c.dh pre ((Outgoing.frame .data payload e.2.bfKey).datagram K encrypt r) =
          some ((Outgoing.frame .data payload e.2.bfKey).datagram K encrypt r) := by
  have hb : (Outgoing.frame .data payload e.2.bfKey).datagram K encrypt r = encrypt e.2.bfKey (plainFrame K .data payload) := rfl
  have hplain := (plainFrame_bounds K .data payload hp).1
  have hmod : ((Outgoing.frame .data payload e.2.bfKey).datagram K encrypt r).length % 8 = 0 := by
    rw [hb, hencLen]
    exact hplain
  have hopens : K.decrypt e.2.bfKey ((Outgoing.frame .data payload e.2.bfKey).datagram K encrypt r) = plainFrame K .data payload :=
    hdec _ _ hplain
  generalize (Outgoing.frame .data payload e.2.bfKey).datagram K encrypt r = b at hb hmod hopens ⊢
  have hc : Listed K c.remoteEp c.peers.nodeId c.dh (c.peers.linked c.remoteEp) c := ⟨rfl, rfl, rfl, hsorted, hfit, rfl⟩
  generalize hes : c.peers.linked c.remoteEp = es at he hc ⊢
  constructor
  · rintro ⟨-, d, rec, hlast, hopen⟩
    obtain ⟨k, hturn, hlisted⟩ := @rounds_inTurn K _ _ _ es b c hep hdecLen c.peers.entries.length hc hcalm hmod
    obtain ⟨p, hf, hpair⟩ := Option.map_eq_some_iff.mp hlast
    obtain ⟨rfl, rfl⟩ := Prod.mk.inj hpair
    obtain ⟨e', rest, hdrop, hid, hrec, -⟩ := hlisted.fetch hf
    have hmem : e' ∈ es := List.mem_of_mem_drop (hdrop ▸ List.mem_cons_self)
    have hsame : e' = e := by
      have hlook := hsorted.lookup_of_mem (hc.mem.mp hmem).1
      rw [← hid, hsorted.lookup_of_mem (hc.mem.mp he).1] at hlook
      exact Prod.ext (xor_node_inj hid.symm) (Option.some.inj hlook).symm
    subst hsame hrec
    refine ⟨es.take k, rest, ?_, ?_⟩
    · rw [← hdrop, List.take_append_drop]
    · have hback := henc e'.2.bfKey (rounds K c.peers.entries.length b c).2.1 (by rw [inTurn_length hdecLen hturn]; exact hmod)
      rw [hopen, ← hb] at hback
      rw [hturn, ← hback]
  · rintro ⟨pre, post, rfl, hturn⟩
    have hn : pre.length ≤ c.peers.entries.length := by
      have hle := hc.length_le
      rw [List.length_append] at hle
      omega
    obtain ⟨u, hu, hucalm, hrounds, hfuel⟩ := rounds_of_inTurn hep hdecLen hc hcalm hmod hturn hn
    obtain ⟨t, hrun, hstate, hid⟩ := handleUninit_data hu hucalm hmod hp hopens
    refine ⟨⟨2 + 2 * pre.length, t, fun fuel => ?_, hstate, hid⟩, b, e.2, ?_, hopens⟩
    · have hpacket : handlePacket K (fuel + (2 + 2 * pre.length)) b c = handleUninit K (fuel + 2 + 2 * pre.length) b c := by
        rw [handlePacket, get_bind_apply, huninit, Nat.add_assoc]
      rw [hpacket, hfuel, hrun]
    · rw [lastRecord, hrounds, rounds_none (round_data hu hucalm hmod hp hopens), (hu.opened hucalm).1]
      rfl

private theorem xorCrypto_length (key p : Bytes) : (xorCrypto.decrypt key p).length = p.length := List.length_map _

private theorem xorCrypto_decrypt (key p : Bytes) : xorCrypto.decrypt key (xorCrypto.decrypt key p) = p := by
  show (p.map (· ^^^ key.headD 0)).map (· ^^^ key.headD 0) = p
  rw [List.map_map, List.map_id'' fun x => ?_]
  simp [UInt8.xor_assoc]

/-- Three records of one endpoint: the second undoes what the first has made of the datagram. -/
def turnedPeers : PeerDb := ⟨0, [peerRecord 2 5, peerRecord 3 5, peerRecord 1 3]⟩

theorem data_delivered_turned : Delivered xorCrypto [7, 0, 9, 0] (peerRecord 1 3).1
    ((Outgoing.frame .data [7, 0, 9, 0] (peerRecord 1 3).2.bfKey).datagram xorCrypto xorCrypto.decrypt 0)
    (.init peerEp turnedPeers) := by
  have hsorted : turnedPeers.Sorted := by
    rw [PeerDb.Sorted]
    decide +kernel
  have hfit : Fit xorCrypto turnedPeers := by
    have hall : (turnedPeers.entries.all fun e =>
        decide (xorCrypto.sha1 e.2.publicKey = e.1 ^^^ turnedPeers.nodeId ∧ e.2.valid = true)) = true := by decide +kernel
    intro e he
    exact of_decide_eq_true (List.all_eq_true.mp hall e he)
  have hmem : peerRecord 1 3 ∈ turnedPeers.linked peerEp := List.mem_cons_of_mem _ (List.mem_cons_of_mem _ List.mem_cons_self)
  have hid : (peerRecord 1 3).1 ^^^ turnedPeers.nodeId = (peerRecord 1 3).1 := BitVec.xor_zero
  have hdelivered := (@data_delivered_iff xorCrypto xorCrypto.decrypt xorCrypto_length xorCrypto_length
    (fun key p _ => xorCrypto_decrypt key p) (fun key p _ => xorCrypto_decrypt key p) (.init peerEp turnedPeers) hsorted hfit
    (by decide) rfl rfl _ hmem [7, 0, 9, 0] (by decide) 0).mpr
    ⟨[peerRecord 2 5, peerRecord 3 5], [], rfl, by decide +kernel⟩
  exact hid ▸ hdelivered

/-- The frame with the key of the second record: the key of the first has changed it before its turn comes, so that it is not
delivered; both records are forgotten, and the connection starts a key exchange. -/
theorem data_spoiled : twinPeers.Sorted ∧ Fit twinCrypto twinPeers ∧
    (Outgoing.frame .data [7, 0, 9, 0] twinKey).datagram twinCrypto twinSwap 0 = twinCipher ∧
    (∃ e ∈ twinPeers.linked peerEp, e.2.bfKey = twinKey ∧
      ¬ Delivered twinCrypto [7, 0, 9, 0] (e.1 ^^^ twinPeers.nodeId) twinCipher (.init peerEp twinPeers)) ∧
    failing twinCrypto twinCipher (.init peerEp twinPeers) = twinPeers.entries.map Prod.fst ∧
    (handlePacket twinCrypto 6 twinCipher (.init peerEp twinPeers)).2.curState = .generatedDh := by
  have hnone : (lastRecord twinCrypto twinCipher (.init peerEp twinPeers)).isNone = true := by decide +kernel
  refine ⟨twinPeers_sorted, twinPeers_fit, by decide +kernel, ?_, by decide +kernel, by decide +kernel⟩
  refine ⟨_, List.mem_cons_of_mem _ List.mem_cons_self, rfl, ?_⟩
  rintro ⟨-, d, r, hlast, -⟩
  rw [hlast] at hnone
  cases hnone

end Tornet.Connection
