import Tornet.Connection.Accounts
import Tornet.Connection.Framing

/-! One datagram under the keys of all records of an endpoint: `handle_uninit` resumes a record, `handle_connected` forgets it
where the datagram does not decode, and starts over. -/
namespace Tornet

namespace PeerDb

/-- The records of an endpoint, in the order of the index. -/
def linked (db : PeerDb) (ep : Endpoint) : List (Sha1 × PeerRecord) := db.entries.filter fun e => e.2.lastEp = ep

theorem fetchByEndpoint_eq (db : PeerDb) (ep : Endpoint) :
    db.fetchByEndpoint ep = (db.linked ep).head?.map fun e => (e.1 ^^^ db.nodeId, e.2) := by
  rw [fetchByEndpoint, linked, List.head?_filter]

private theorem filter_put (k : Sha1) (r : PeerRecord) (es : List (Sha1 × PeerRecord)) (p : Sha1 × PeerRecord → Bool) :
    ((put k r es).filter fun e => decide (e.1 ≠ k) && p e) = es.filter fun e => decide (e.1 ≠ k) && p e := by
  induction es with
  | nil => simp [put]
  | cons e rest ih =>
    rw [put]
    split_ifs with heq hlt
    · subst heq
      simp
    · simp
    · simp only [List.filter_cons, ih]

/-- A store under an id changes nothing for the others. -/
theorem linked_store_others (db : PeerDb) (id : Sha1) (r : PeerRecord) (ep : Endpoint) :
    ((db.store id r).linked ep).filter (fun e => e.1 ≠ id ^^^ db.nodeId) =
      (db.linked ep).filter fun e => e.1 ≠ id ^^^ db.nodeId := by
  rw [linked, linked, List.filter_filter, List.filter_filter]
  exact filter_put _ r _ _

/-- A record that is stored without the endpoint leaves the index. -/
theorem Sorted.linked_store {db : PeerDb} (h : db.Sorted) {id : Sha1} {r : PeerRecord} {ep : Endpoint} (hr : r.lastEp ≠ ep) :
    (db.store id r).linked ep = (db.linked ep).filter fun e => e.1 ≠ id ^^^ db.nodeId := by
  rw [← linked_store_others db id r ep, eq_comm, List.filter_eq_self]
  intro e he
  obtain ⟨hmem, hep⟩ := List.mem_filter.mp he
  refine decide_eq_true fun hkey => hr ?_
  have hid : e.1 ^^^ db.nodeId = id := by rw [hkey, BitVec.xor_assoc, BitVec.xor_self, BitVec.xor_zero]
  have hlook := (h.store id r).lookup_of_mem hmem
  rw [show (db.store id r).nodeId = db.nodeId from rfl, hid, lookup_store, if_pos rfl] at hlook
  rw [Option.some.inj hlook]
  exact of_decide_eq_true hep

theorem Sorted.linked {db : PeerDb} (h : db.Sorted) (ep : Endpoint) : (db.linked ep).Pairwise fun e e' => e.1 < e'.1 :=
  h.filter _

/-- The others of the first record are the rest. -/
theorem filter_tail {e : Sha1 × PeerRecord} {rest : List (Sha1 × PeerRecord)}
    (h : (e :: rest).Pairwise fun e e' => e.1 < e'.1) : ((e :: rest).filter fun x => x.1 ≠ e.1) = rest := by
  rw [List.filter_cons_of_neg (by simp), List.filter_eq_self]
  intro x hx
  exact decide_eq_true (BitVec.ne_of_lt (List.rel_of_pairwise_cons h hx)).symm

end PeerDb

namespace Connection
open Library Eff

/-- Every record passes the check of `store`, and is valid. -/
def Fit (K : Crypto) (db : PeerDb) : Prop := ∀ e ∈ db.entries, K.sha1 e.2.publicKey = e.1 ^^^ db.nodeId ∧ e.2.valid = true

theorem Fit.store {K : Crypto} {db : PeerDb} (h : Fit K db) {id : Sha1} {r : PeerRecord} (hid : K.sha1 r.publicKey = id)
    (hvalid : r.valid = true) : Fit K (db.store id r) := by
  intro e he
  rcases PeerDb.mem_put he with rfl | he
  · refine ⟨?_, hvalid⟩
    show K.sha1 r.publicKey = id ^^^ db.nodeId ^^^ db.nodeId
    rw [hid, BitVec.xor_assoc, BitVec.xor_self, BitVec.xor_zero]
  · exact h e he

/-! ### No handler but the recursion itself runs out of fuel -/

abbrev Finite {α : Type} (m : Handler α) : Prop := Never Stop.overflow m

/-- Before a round: the endpoint has these records. -/
structure Listed (K : Crypto) (ep : Endpoint) (node : Sha1) (dh : Option Dh) (es : List (Sha1 × PeerRecord)) (c : Conn) :
    Prop where
  remoteEp : c.remoteEp = ep
  nodeId : c.peers.nodeId = node
  dh : c.dh = dh
  sorted : c.peers.Sorted
  fit : Fit K c.peers
  linked : c.peers.linked ep = es

/-- In a round: the connection stands for this peer, and these are the other records of the endpoint. -/
structure Trying (K : Crypto) (ep : Endpoint) (node : Sha1) (dh : Option Dh) (id : Sha1) (key : Bytes)
    (others : List (Sha1 × PeerRecord)) (c : Conn) : Prop where
  remoteEp : c.remoteEp = ep
  nodeId : c.peers.nodeId = node
  dh : c.dh = dh
  sorted : c.peers.Sorted
  fit : Fit K c.peers
  remoteId : c.remoteId = id
  publicKey : c.record.publicKey = key
  others : ((c.peers.linked ep).filter fun e => e.1 ≠ id ^^^ node) = others

section
variable {K : Crypto} {ep : Endpoint} {node id : Sha1} {dh : Option Dh} {key : Bytes} {es : List (Sha1 × PeerRecord)}

def ValidKey (key : Bytes) : Prop := key ≠ List.replicate 256 0

theorem ValidKey.of_valid {r : PeerRecord} (h : r.valid = true) : ValidKey r.publicKey :=
  (of_decide_eq_true h : r.publicKey ≠ List.replicate 256 0)

theorem Listed.stable : Stable (Listed K ep node dh es) := fun _ _ h hs =>
  ⟨hs.remoteEp.trans h.remoteEp, hs.peers ▸ h.nodeId, hs.dh.trans h.dh, hs.peers ▸ h.sorted, hs.peers ▸ h.fit, hs.peers ▸ h.linked⟩

theorem Listed.blank_stable : Stable fun c => Listed K ep node dh es c ∧ c.record.valid = false := by
  intro c c' h hs
  refine ⟨Listed.stable h.1 hs, ?_⟩
  rw [PeerRecord.valid, hs.publicKey]
  exact h.2

theorem Trying.stable : Stable (Trying K ep node dh id key es) := fun _ _ h hs =>
  ⟨hs.remoteEp.trans h.remoteEp, hs.peers ▸ h.nodeId, hs.dh.trans h.dh, hs.peers ▸ h.sorted, hs.peers ▸ h.fit,
    hs.remoteId.trans h.remoteId, hs.publicKey.trans h.publicKey, hs.peers ▸ h.others⟩

/-- The record passes the check of `store`, or nothing is stored. -/
theorem Trying.storeRecord (hkey : ValidKey key) :
    Post (Trying K ep node dh id key es) (storeRecord K id) (fun _ => Trying K ep node dh id key es) fun _ _ => True := by
  refine .get_keep fun c hc => .ite (fun hid => ?_) fun _ => .throw fun _ _ => True.intro
  refine .bind Trying.stable.external.quiet fun _ => .modify fun t ht => ?_
  have hvalid : t.record.valid = true := decide_eq_true (ht.publicKey ▸ hkey)
  have hholds : K.sha1 t.record.publicKey = id := by rw [ht.publicKey, ← hc.publicKey, hid]
  refine ⟨ht.remoteEp, ht.nodeId, ht.dh, ht.sorted.store _ _, ht.fit.store hholds hvalid, ht.remoteId, ht.publicKey, ?_⟩
  have hothers := t.peers.linked_store_others id t.record ep
  rw [ht.nodeId] at hothers
  rw [← ht.others, ← hothers]

theorem Trying.reset :
    Post (Trying K ep node dh id key es) (reset K) (fun _ => Trying K ep node dh id key es) fun _ _ => True := by
  have S := @Trying.stable K ep node id dh key es
  refine .get_keep fun c hc => .bind (R := fun _ => Trying K ep node dh id key es) (.when (fun hv => ?_) fun _ _ h => h)
    fun _ => .bind S.external.quiet fun _ => .bind S.external.quiet fun _ => (S.gotoState _).quiet
  refine .bind (R := fun _ => Trying K ep node dh id key es) (.modify fun _ ht => S ht (.of_books rfl)) fun _ => ?_
  rw [hc.remoteId]
  exact Trying.storeRecord (hc.publicKey ▸ .of_valid hv)

theorem Stable.kept {P : Conn → Prop} (S : Stable P) (hreset : Post P (reset K) (fun _ => P) fun _ _ => True) : Kept K P where
  contact _ hc := S hc (.of_books rfl)
  publicEp _ hc := S hc (.of_books rfl)
  send t payload := (S.send t payload).quiet
  reset := hreset

theorem Trying.kept : Kept K (Trying K ep node dh id key es) := Trying.stable.kept Trying.reset

theorem valid_blank (ep : Endpoint) : (PeerRecord.blank ep).valid = false := decide_eq_false (not_not.mpr rfl)

/-- `reset` stores nothing for a blank record. -/
theorem Listed.reset : Post (fun c => Listed K ep node dh es c ∧ c.record.valid = false) (reset K)
    (fun _ c => Listed K ep node dh es c ∧ c.record.valid = false) fun _ _ => True := by
  have S := @Listed.blank_stable K ep node dh es
  refine .get_keep fun c hc => .bind (R := fun _ c => Listed K ep node dh es c ∧ c.record.valid = false)
    (.when (fun hv => ?_) fun _ _ => id) fun _ => ?_
  · exact absurd (hc.2.symm.trans hv) Bool.false_ne_true
  · exact .bind S.external.quiet fun _ => .bind S.external.quiet fun _ => (S.gotoState _).quiet

/-- The record is dropped. -/
theorem Listed.drop : Post (Listed K ep node dh es) (Eff.modify fun c => { c with record := .blank c.remoteEp } : Handler Unit)
    (fun _ c => Listed K ep node dh es c ∧ c.record.valid = false) fun _ _ => True := by
  apply Post.modify
  intro t ht
  constructor
  · exact ⟨ht.remoteEp, ht.nodeId, ht.dh, ht.sorted, ht.fit, ht.linked⟩
  · exact valid_blank t.remoteEp

/-- A record without the endpoint is stored for the peer. -/
theorem Trying.unlink (hkey : ValidKey key) (hep : ep ≠ {}) : Post (Trying K ep node dh id key es) (do
    Eff.modify fun c => { c with record := unlinkedRecord c.record }
    Connection.storeRecord K id) (fun _ => Listed K ep node dh es) fun _ _ => True := by
  have S : Stable fun c => Trying K ep node dh id key es c ∧ c.record.lastEp = {} := by
    intro c c' h hs
    refine ⟨Trying.stable h.1 hs, ?_⟩
    rcases hs.lastEp with heq | heq
    · rw [heq]
      exact h.2
    · exact heq
  refine .bind (R := fun _ c => Trying K ep node dh id key es c ∧ c.record.lastEp = {}) (.modify fun c hc => ?_) fun _ => ?_
  · exact ⟨Trying.stable hc ⟨⟨rfl, rfl, rfl, rfl, rfl, .inr rfl⟩, rfl, rfl, .inr ⟨rfl, rfl⟩⟩, rfl⟩
  refine .get_keep fun c hc => .ite (fun hid => ?_) fun _ => .throw fun _ _ => True.intro
  refine .bind S.external.quiet fun _ => .modify fun t ht => ?_
  obtain ⟨ht, hlast⟩ := ht
  have hvalid : t.record.valid = true := decide_eq_true (ht.publicKey ▸ hkey)
  have hholds : K.sha1 t.record.publicKey = id := by rw [ht.publicKey, ← hc.1.publicKey, hid]
  refine ⟨ht.remoteEp, ht.nodeId, ht.dh, ht.sorted.store _ _, ht.fit.store hholds hvalid, ?_⟩
  rw [ht.sorted.linked_store (by rw [hlast]; exact hep.symm), ht.nodeId]
  exact ht.others

/-- What `handle_connected` leaves for the next round: where there was a peer, it is forgotten. -/
theorem Trying.forgetPeer (hep : ep ≠ {}) : Post (Trying K ep node dh id key es) (forgetPeer K)
    (fun _ c => ∃ es', Listed K ep node dh es' c ∧ (ValidKey key → es' = es)) fun _ _ => True := by
  refine .get_keep fun c hc => ?_
  refine .bind (R := fun _ c => ∃ es', Listed K ep node dh es' c ∧ (ValidKey key → es' = es)) (.when (fun hv => ?_) fun hv => ?_)
    fun _ => ?_
  · rw [hc.remoteId]
    exact (Trying.unlink (hc.publicKey ▸ .of_valid hv) hep).conseq (fun _ h => h) (fun _ _ h => ⟨es, h, fun _ => rfl⟩)
      fun _ _ h => h
  · intro t ht
    refine ⟨_, ⟨ht.remoteEp, ht.nodeId, ht.dh, ht.sorted, ht.fit, rfl⟩, fun hkey => ?_⟩
    exact absurd (hv.symm.trans (decide_eq_true (hc.publicKey ▸ hkey))) Bool.false_ne_true
  · refine Post.exists (P := fun es' c => Listed K ep node dh es' c ∧ (ValidKey key → es' = es)) ?_
    intro es'
    refine Post.bind (R := fun _ c => (Listed K ep node dh es' c ∧ c.record.valid = false) ∧ (ValidKey key → es' = es)) ?_ ?_
    · exact Listed.drop.and
    · exact fun _ => Listed.reset.and.conseq (fun _ h => h) (fun _ _ h => ⟨es', h.1.1, h.2⟩) fun _ _ h => h

end

/-- The part of `handle_uninit` that resumes a record. -/
def resume (K : Crypto) (id : Sha1) (r : PeerRecord) : Handler Unit := do
  Eff.modify fun c => { c with remoteId := id, record := r, bf := some r.bfKey, resumed := true }
  updateDistIndex
  Eff.modify fun c => { c with record := { c.record with connected := true } }
  storeRecord K id
  gotoState .connected

private theorem handleUninit_known {K : Crypto} {fuel : Nat} {b : Bytes} {c : Conn} {id : Sha1} {r : PeerRecord}
    (hf : c.peers.fetchByEndpoint c.remoteEp = some (id, r)) :
    handleUninit K (fuel + 1) b c = (resume K id r >>= fun _ => handleConnected K fuel b) c := by
  rw [handleUninit, Eff.get_bind_apply, hf]
  simp only [resume, Eff.bind_assoc]

/-- A datagram that is not accepted, and what is done about it before the next call of `handle_uninit`. -/
def failed (m : Handler (Bool × Bytes)) (tidy : Handler Unit) (c : Conn) : Option (Bytes × Conn) :=
  match m c with
  | (.ok (false, d), t) =>
    match tidy t with
    | (.ok _, u) => some (d, u)
    | (.error _, _) => none
  | _ => none

/-- How `handle_uninit` is called again. -/
def retry (K : Crypto) (fuel : Nat) (m : Handler (Bool × Bytes)) (tidy : Handler Unit) : Handler Unit := do
  let r ← m
  if r.1 then pure ()
  else do
    tidy
    handleUninit K fuel r.2

/-- A record of the endpoint is tried, and the datagram decrypted in place. -/
def attempt (K : Crypto) (b : Bytes) (id : Sha1) (r : PeerRecord) : Handler (Bool × Bytes) := do
  resume K id r
  tryDecode K b

/-- `handle_uninit` and `handle_connected` once around: the peer that has failed, and the datagram and the connection for the
next one; `none` where there is no next one. -/
def round (K : Crypto) (b : Bytes) (c : Conn) : Option (Sha1 × Bytes × Conn) :=
  match c.peers.fetchByEndpoint c.remoteEp with
  | none => none
  | some (id, r) => (failed (attempt K b id r) (forgetPeer K) c).map fun p => (id, p)

/-- The peers that fail one after the other, and where the recursion ends. -/
def rounds (K : Crypto) : Nat → Bytes → Conn → List Sha1 × Bytes × Conn
  | 0, b, c => ([], b, c)
  | n + 1, b, c =>
    match round K b c with
    | none => ([], b, c)
    | some (id, d, u) => (id :: (rounds K n d u).1, (rounds K n d u).2)

section
variable {K : Crypto} {ep : Endpoint} {node id : Sha1} {dh : Option Dh} {es : List (Sha1 × PeerRecord)} {b d : Bytes}
  {c u : Conn} {m : Handler (Bool × Bytes)} {tidy : Handler Unit}

theorem failed_eq_some (h : failed m tidy c = some (d, u)) : ∃ t, m c = (.ok (false, d), t) ∧ tidy t = (.ok (), u) := by
  rw [failed] at h
  split at h
  · rename_i d' t hm
    split at h
    · rename_i u' hu
      cases h
      exact ⟨t, hm, hu⟩
    · cases h
  · cases h

theorem retry_some (h : failed m tidy c = some (d, u)) (fuel : Nat) : retry K fuel m tidy c = handleUninit K fuel d u := by
  obtain ⟨t, hm, hu⟩ := failed_eq_some h
  rw [retry, bind_ok hm]
  exact bind_ok hu

def Ends (run : Nat → Except Stop Unit × Conn) (x : Except Stop Unit × Conn) : Prop :=
  x.1 ≠ .error .overflow ∧ ∀ fuel, run fuel = x

theorem round_eq_some (h : round K b c = some (id, d, u)) :
    ∃ r, c.peers.fetchByEndpoint c.remoteEp = some (id, r) ∧ failed (attempt K b id r) (forgetPeer K) c = some (d, u) := by
  rw [round] at h
  split at h
  · cases h
  · rename_i id' r hf
    obtain ⟨p, hp, heq⟩ := Option.map_eq_some_iff.mp h
    cases heq
    exact ⟨r, hf, hp⟩

theorem round_eq_none {r : PeerRecord} (h : round K b c = none) (hf : c.peers.fetchByEndpoint c.remoteEp = some (id, r)) :
    failed (attempt K b id r) (forgetPeer K) c = none := by
  rw [round, hf] at h
  exact Option.map_eq_none_iff.mp h

theorem handleConnected_eq (K : Crypto) (fuel : Nat) (b : Bytes) :
    handleConnected K (fuel + 1) b = retry K fuel (tryDecode K b) (forgetPeer K) := by
  rw [handleConnected, retry]

/-- `handle_uninit` for an endpoint with a record. -/
theorem handleUninit_eq {r : PeerRecord} (hf : c.peers.fetchByEndpoint c.remoteEp = some (id, r)) (fuel : Nat) :
    handleUninit K (fuel + 2) b c = retry K fuel (attempt K b id r) (forgetPeer K) c := by
  rw [handleUninit_known hf, handleConnected_eq, retry, retry, attempt, bind_assoc]

/-- After a round that fails the recursion is one round further. -/
theorem handleUninit_round (h : round K b c = some (id, d, u)) (fuel : Nat) :
    handleUninit K (fuel + 2) b c = handleUninit K fuel d u := by
  obtain ⟨r, hf, hfail⟩ := round_eq_some h
  rw [handleUninit_eq hf, retry_some hfail]

/-- A record is resumed: the connection stands for its peer. -/
theorem Listed.resume {e : Sha1 × PeerRecord} {rest : List (Sha1 × PeerRecord)} (hkey : ValidKey e.2.publicKey) :
    Post (Listed K ep node dh (e :: rest)) (resume K (e.1 ^^^ node) e.2)
      (fun _ => Trying K ep node dh (e.1 ^^^ node) e.2.publicKey rest) fun _ _ => True := by
  have S := @Trying.stable K ep node (e.1 ^^^ node) dh e.2.publicKey rest
  refine .bind (R := fun _ => Trying K ep node dh (e.1 ^^^ node) e.2.publicKey rest)
    (.modify fun c hc => ⟨hc.remoteEp, hc.nodeId, hc.dh, hc.sorted, hc.fit, rfl, rfl, ?_⟩) fun _ => ?_
  · have hpair := hc.sorted.linked ep
    rw [hc.linked] at hpair
    rw [hc.linked, BitVec.xor_assoc, BitVec.xor_self, BitVec.xor_zero]
    exact PeerDb.filter_tail hpair
  · refine .bind S.external.quiet fun _ => ?_
    refine .bind (R := fun _ => Trying K ep node dh (e.1 ^^^ node) e.2.publicKey rest)
      (.modify fun c hc => S hc (.of_books rfl)) fun _ => ?_
    exact .bind (Trying.storeRecord hkey) fun _ => (S.gotoState _).quiet

theorem Listed.mem (h : Listed K ep node dh es c) {e : Sha1 × PeerRecord} : e ∈ es ↔ e ∈ c.peers.entries ∧ e.2.lastEp = ep := by
  rw [← h.linked, PeerDb.linked, List.mem_filter, decide_eq_true_iff]

theorem Listed.fetch (h : Listed K ep node dh es c) {r : PeerRecord} (hf : c.peers.fetchByEndpoint c.remoteEp = some (id, r)) :
    ∃ e rest, es = e :: rest ∧ id = e.1 ^^^ node ∧ r = e.2 ∧ K.sha1 r.publicKey = id ∧ r.valid = true := by
  rw [h.remoteEp, PeerDb.fetchByEndpoint_eq, h.linked, h.nodeId] at hf
  obtain ⟨e, he, heq⟩ := Option.map_eq_some_iff.mp hf
  obtain ⟨rest, rfl⟩ := List.head?_eq_some_iff.mp he
  cases heq
  have hfit := h.fit e (h.mem.mp List.mem_cons_self).1
  rw [h.nodeId] at hfit
  exact ⟨e, rest, rfl, rfl, rfl, hfit.1, hfit.2⟩

/-- A round takes one record from the index, and no other. -/
theorem round_listed (hep : ep ≠ {}) (hc : Listed K ep node dh es c) (h : round K b c = some (id, d, u)) :
    ∃ e rest, es = e :: rest ∧ id = e.1 ^^^ node ∧ Listed K ep node dh rest u := by
  obtain ⟨r, hf, hfail⟩ := round_eq_some h
  obtain ⟨t, ha, hu⟩ := failed_eq_some hfail
  obtain ⟨e, rest, rfl, rfl, rfl, -, hvalid⟩ := hc.fetch hf
  have hkey : ValidKey e.2.publicKey := .of_valid hvalid
  have hattempt : Post (Listed K ep node dh (e :: rest)) (attempt K b (e.1 ^^^ node) e.2)
      (fun r t => r.1 = false → Trying K ep node dh (e.1 ^^^ node) e.2.publicKey rest t) fun _ _ => True :=
    .bind (Listed.resume hkey) fun _ => tryDecode_false Trying.kept b
  have htrying := hattempt c hc
  rw [ha] at htrying
  have hlisted := Trying.forgetPeer hep t (htrying rfl)
  rw [hu] at hlisted
  obtain ⟨es', hlisted, hes⟩ := hlisted
  exact ⟨e, rest, rfl, rfl, hes hkey ▸ hlisted⟩

theorem xor_node_inj {x y node : Sha1} (h : x ^^^ node = y ^^^ node) : x = y := by
  have hxor := congrArg (· ^^^ node) h
  simpa only [BitVec.xor_assoc, BitVec.xor_self, BitVec.xor_zero] using hxor

end

/-! ### Where no outside call throws -/

/-- No outside call throws, and a record that is stored passes the check of `store`. -/
structure Calm (K : Crypto) (c : Conn) : Prop where
  faults : c.env.faults = none
  holds : c.record.valid = true → c.Holds K

section
variable {K : Crypto}

abbrev Returns {α : Type} (P : Conn → Prop) (m : Handler α) : Prop := Post P m (fun _ => P) fun _ _ => False

theorem Calm.external : Returns (Calm K) external := external_returns fun _ hc => hc.faults

theorem Calm.storeRecord {id : Sha1} : Returns (fun c => Calm K c ∧ K.sha1 c.record.publicKey = id) (storeRecord K id) := by
  refine .get_bind fun c hc => ?_
  rw [if_pos hc.2]
  have hexternal : Returns (fun c => Calm K c ∧ K.sha1 c.record.publicKey = id) Connection.external :=
    external_returns fun _ ht => ht.1.faults
  refine .bind (hexternal.named hc) fun _ => .modify fun t ht => ?_
  exact ⟨⟨ht.1.faults, ht.1.holds⟩, ht.2⟩

theorem Calm.reset : Returns (Calm K) (reset K) := by
  refine .get_bind fun c hc => .bind (R := fun _ => Calm K) (.when (fun hv => ?_) fun _ t ht => ht ▸ hc) fun _ => ?_
  · refine .bind (R := fun _ t => Calm K t ∧ K.sha1 t.record.publicKey = c.remoteId) (.modify ?_) fun _ => ?_
    · rintro t rfl
      exact ⟨⟨hc.faults, hc.holds⟩, hc.holds hv⟩
    · exact Calm.storeRecord.conseq (fun _ h => h) (fun _ _ h => h.1) fun _ _ h => h
  · refine .bind Calm.external fun _ => .bind Calm.external fun _ => .modify fun t ht => ?_
    exact ⟨ht.faults, ht.holds⟩

theorem Calm.forgetPeer : Returns (Calm K) (forgetPeer K) := by
  refine .get_bind fun c hc => .bind (R := fun _ => Calm K) (.when (fun hv => ?_) fun _ t ht => ht ▸ hc) fun _ => ?_
  · refine .bind (R := fun _ t => Calm K t ∧ K.sha1 t.record.publicKey = c.remoteId) (.modify ?_) fun _ => ?_
    · rintro t rfl
      exact ⟨⟨hc.faults, hc.holds⟩, hc.holds hv⟩
    · exact Calm.storeRecord.conseq (fun _ h => h) (fun _ _ h => h.1) fun _ _ h => h
  · refine Post.bind (R := fun _ => Calm K) ?_ ?_
    · apply Post.modify
      intro t ht
      constructor
      · exact ht.faults
      · exact fun hv => absurd ((valid_blank t.remoteEp).symm.trans hv) Bool.false_ne_true
    · exact fun _ => Calm.reset

/-- What follows a call that may throw. -/
theorem Calm.kept : Kept K (Calm K) where
  contact _ hc := ⟨hc.faults, hc.holds⟩
  publicEp _ hc := ⟨hc.faults, hc.holds⟩
  send t payload := by
    refine .get_keep fun c hc => .ite (fun hlen => ?_) fun _ => .throw fun _ _ => True.intro
    split
    · exact .throw fun _ _ => True.intro
    · exact .bind (Calm.external.quiet) fun _ => .modify fun t ht => ⟨ht.faults, ht.holds⟩
  reset := Calm.reset.quiet

/-- Where nothing throws, what is not accepted is tried again. -/
theorem Calm.failed {m : Handler (Bool × Bytes)} {tidy : Handler Unit} {c : Conn}
    (hm : Post (fun t => t = c) m (fun r t => r.1 = false → Calm K t) fun _ _ => True) (htidy : Returns (Calm K) tidy)
    (h : failed m tidy c = none) (d : Bytes) (t : Conn) : m c ≠ (.ok (false, d), t) := by
  intro hmc
  have ht := hm c rfl
  rw [hmc] at ht
  have hu := htidy t (ht rfl)
  rw [Connection.failed] at h
  rcases htu : tidy t with ⟨e | v, u⟩
  · rw [htu] at hu
    exact hu
  · simp only [hmc, htu] at h
    cases h

private theorem resume_calm {id : Sha1} {r : PeerRecord} (hid : K.sha1 r.publicKey = id) :
    Post (fun c => c.env.faults = none) (resume K id r) (fun _ => Calm K) fun _ _ => False := by
  refine .bind (R := fun _ c => Calm K c ∧ K.sha1 c.record.publicKey = id) (.modify fun c hc => ?_) fun _ => ?_
  · exact ⟨⟨hc, fun _ => hid⟩, hid⟩
  have hexternal : Returns (fun c => Calm K c ∧ K.sha1 c.record.publicKey = id) external :=
    external_returns fun _ ht => ht.1.faults
  refine .bind hexternal fun _ => ?_
  refine .bind (R := fun _ c => Calm K c ∧ K.sha1 c.record.publicKey = id) (.modify fun c hc => ?_) fun _ => ?_
  · exact ⟨⟨hc.1.faults, hc.1.holds⟩, hc.2⟩
  · exact .bind Calm.storeRecord fun _ => .modify fun t ht => ⟨ht.1.faults, ht.1.holds⟩

theorem attempt_calm (b : Bytes) {id : Sha1} {r : PeerRecord} (hid : K.sha1 r.publicKey = id) :
    Post (fun c => c.env.faults = none) (attempt K b id r) (fun r t => r.1 = false → Calm K t) fun _ _ => True :=
  .bind (resume_calm hid).quiet fun _ => tryDecode_false Calm.kept b

theorem round_calm {ep : Endpoint} {node id : Sha1} {dh : Option Dh} {es : List (Sha1 × PeerRecord)} {b d : Bytes} {c u : Conn}
    (hc : Listed K ep node dh es c) (hcalm : c.env.faults = none) (h : round K b c = some (id, d, u)) : u.env.faults = none := by
  obtain ⟨r, hf, hfail⟩ := round_eq_some h
  obtain ⟨t, ha, hu⟩ := failed_eq_some hfail
  obtain ⟨e, rest, -, -, -, hid, -⟩ := hc.fetch hf
  have ht := attempt_calm b hid c hcalm
  rw [ha] at ht
  have hforget := Calm.forgetPeer t (ht rfl)
  rw [hu] at hforget
  exact hforget.faults

end

/-! ### From any state -/

/-- What `handle_packet` does before it calls `handle_uninit`: how the datagram is tried, and what follows if it is not
accepted. -/
def firstTry (K : Crypto) (b : Bytes) : State → Option (Handler (Bool × Bytes) × Handler Unit)
  | .failed | .generatedDh => none
  | .uninit => some (pure (false, b), pure ())
  | .receivedDh => if b.length % 8 = 0 then some (decodePacket K b, gotoState .uninit) else none
  | .authenticated =>
    if b.length % 8 = 0 then some (decodePacket K b, reset K)
    else if 56 < b.length then some (pure (false, b), reset K)
    else none
  | .connected => some (tryDecode K b, forgetPeer K)

/-- The datagram and the connection with which `handle_packet` calls `handle_uninit`, if it does. -/
def enter (K : Crypto) (b : Bytes) (c : Conn) : Option (Bytes × Conn) :=
  (firstTry K b c.curState).bind fun p => failed p.1 p.2 c

section
variable {K : Crypto} {b d : Bytes} {c u : Conn} {m : Handler (Bool × Bytes)} {tidy : Handler Unit}

theorem firstTry_cases {s : State} (h : firstTry K b s = some (m, tidy)) :
    (s = .uninit ∧ m = pure (false, b) ∧ tidy = pure ()) ∨
    (s = .receivedDh ∧ b.length % 8 = 0 ∧ m = decodePacket K b ∧ tidy = gotoState .uninit) ∨
    (s = .authenticated ∧ b.length % 8 = 0 ∧ m = decodePacket K b ∧ tidy = reset K) ∨
    (s = .authenticated ∧ b.length % 8 ≠ 0 ∧ 56 < b.length ∧ m = pure (false, b) ∧ tidy = reset K) ∨
    (s = .connected ∧ m = tryDecode K b ∧ tidy = forgetPeer K) := by
  cases s with
  | failed => cases h
  | generatedDh => cases h
  | uninit =>
    cases h
    exact .inl ⟨rfl, rfl, rfl⟩
  | receivedDh =>
    rw [firstTry] at h
    split_ifs at h with hmod
    cases h
    exact .inr (.inl ⟨rfl, hmod, rfl, rfl⟩)
  | authenticated =>
    rw [firstTry] at h
    split_ifs at h with hmod hlen
    · cases h
      exact .inr (.inr (.inl ⟨rfl, hmod, rfl, rfl⟩))
    · cases h
      exact .inr (.inr (.inr (.inl ⟨rfl, hmod, hlen, rfl, rfl⟩)))
  | connected =>
    cases h
    exact .inr (.inr (.inr (.inr ⟨rfl, rfl, rfl⟩)))

theorem Calm.firstTry {s : State} (h : firstTry K b s = some (m, tidy)) : Returns (Calm K) tidy := by
  rcases firstTry_cases h with ⟨-, -, rfl⟩ | ⟨-, -, -, rfl⟩ | ⟨-, -, -, rfl⟩ | ⟨-, -, -, -, rfl⟩ | ⟨-, -, rfl⟩
  · exact .pure fun _ hc => hc
  · exact .modify fun t ht => ⟨ht.faults, ht.holds⟩
  · exact Calm.reset
  · exact Calm.reset
  · exact Calm.forgetPeer

end

/-! ### The index at the end -/

/-- None of the peers is in the index, and the connection stands for another one. -/
structure Gone (ids : List Sha1) (ep : Endpoint) (node : Sha1) (dh : Option Dh) (c : Conn) : Prop where
  known : ep ≠ {}
  nodeId : c.peers.nodeId = node
  remoteEp : c.remoteEp = ep
  dh : c.dh = dh
  unlinked : ∀ e ∈ c.peers.entries, e.1 ^^^ node ∈ ids → e.2.lastEp ≠ ep
  other : c.remoteId ∉ ids

/-- A message for the key exchange proves that its sender is this peer. -/
def Reproven (K : Crypto) (dh : Option Dh) (id : Sha1) : Prop := ∃ m, Verifies K dh m ∧ K.sha1 m.pubk = id

def Rekeyed (dh : Option Dh) (r : PeerRecord) : Prop := dh.map Dh.sharedKey = some r.bfKey

/-- Of the peers only the one that the connection stands for may be in the index, if it has authenticated itself anew, and
then with the new key. -/
def Unlinked (K : Crypto) (ids : List Sha1) (ep : Endpoint) (node : Sha1) (dh : Option Dh) (c : Conn) : Prop :=
  ∀ e ∈ c.peers.entries, e.1 ^^^ node ∈ ids →
    e.2.lastEp ≠ ep ∨ (e.1 ^^^ node = c.remoteId ∧ Reproven K dh c.remoteId ∧ Rekeyed dh e.2)

/-- The same, while the record at hand may still be stored. -/
structure Left (K : Crypto) (ids : List Sha1) (ep : Endpoint) (node : Sha1) (dh : Option Dh) (c : Conn) : Prop where
  known : ep ≠ {}
  nodeId : c.peers.nodeId = node
  unlinked : Unlinked K ids ep node dh c
  reproven : c.remoteId ∈ ids → Reproven K dh c.remoteId ∧ (c.record.lastEp = {} ∨ Rekeyed dh c.record)

section
variable {K : Crypto} {ids : List Sha1} {ep : Endpoint} {node : Sha1} {dh : Option Dh}

theorem Gone.stable : Stable (Gone ids ep node dh) := fun _ _ h hs =>
  ⟨h.known, hs.peers ▸ h.nodeId, hs.remoteEp.trans h.remoteEp, hs.dh.trans h.dh, hs.peers ▸ h.unlinked, hs.remoteId ▸ h.other⟩

theorem Gone.closed : Closed K (Gone ids ep node dh) where
  steps h hs := Gone.stable h hs
  store {c} h hh := by
    refine ⟨h.known, h.nodeId, h.remoteEp, h.dh, fun e he hid => ?_, h.other⟩
    rcases PeerDb.mem_put he with rfl | he
    · have hkey : c.remoteId ^^^ c.peers.nodeId ^^^ node = c.remoteId := by
        rw [h.nodeId, BitVec.xor_assoc, BitVec.xor_self, BitVec.xor_zero]
      rw [hkey] at hid
      exact absurd hid h.other
    · exact h.unlinked e he hid

theorem Gone.left {c : Conn} (h : Gone ids ep node dh c) : Left K ids ep node dh c :=
  ⟨h.known, h.nodeId, fun e he hid => .inl (h.unlinked e he hid), fun hid => absurd hid h.other⟩

theorem Left.closed : Closed K (Left K ids ep node dh) where
  steps {c c'} h hs := by
    refine ⟨h.known, hs.peers ▸ h.nodeId, ?_, fun hid => ?_⟩
    · rw [Unlinked, hs.peers, hs.remoteId]
      exact h.unlinked
    · rw [hs.remoteId] at hid ⊢
      obtain ⟨hreproven, hrecord⟩ := h.reproven hid
      refine ⟨hreproven, ?_⟩
      rcases hrecord with hlast | hkey
      · exact .inl (hs.lastEp.elim (fun heq => heq.trans hlast) id)
      · rcases hs.bfKey with heq | ⟨-, hlast⟩
        · exact .inr (hkey.trans (congrArg some heq.symm))
        · exact .inl hlast
  store {c} h hh := by
    refine ⟨h.known, h.nodeId, fun e he hid => ?_, h.reproven⟩
    rcases PeerDb.mem_put he with rfl | he
    · have hkey : c.remoteId ^^^ c.peers.nodeId ^^^ node = c.remoteId := by
        rw [h.nodeId, BitVec.xor_assoc, BitVec.xor_self, BitVec.xor_zero]
      rw [hkey] at hid ⊢
      obtain ⟨hreproven, hlast | hrekeyed⟩ := h.reproven hid
      · exact .inl fun heq => h.known (heq.symm.trans hlast)
      · exact .inr ⟨rfl, hreproven, hrekeyed⟩
    · exact h.unlinked e he hid

/-- A fee is added to the record. -/
theorem Left.fee (fee : UInt64) : Preserves (Left K ids ep node dh)
    (Eff.modify fun c => { c with record := { c.record with sentCredit := c.record.sentCredit + fee } } : Handler Unit) :=
  .modify fun _ hc => ⟨hc.known, hc.nodeId, hc.unlinked, hc.reproven⟩

theorem Gone.handleAuthMsg (payload : Bytes) : Post (Gone ids ep node dh) (handleAuthMsg K payload)
    (fun _ => Left K ids ep node dh) fun _ => Left K ids ep node dh := by
  have C := @Left.closed K ids ep node dh
  rw [Connection.handleAuthMsg]
  split
  · exact .throw fun _ hc => hc.left
  rename_i m hm
  refine .bind (R := fun _ => Gone ids ep node dh) (.modify fun c hc => Gone.stable hc (.of_books rfl)) fun _ => ?_
  refine .get_keep fun c hc => ?_
  split
  · exact .throw fun _ hc => hc.left
  rename_i d hd
  refine .ite (fun _ => .throw fun _ hc => hc.left) fun hlen => .ite (fun hv => ?_) fun _ => ?_
  · have hreproven : Reproven K dh (K.sha1 m.pubk) := ⟨m, ⟨d, hc.dh ▸ hd, not_not.mp hlen, hv⟩, rfl⟩
    have C' := C.named (K.sha1 m.pubk)
    have hrekeyed (t : Conn) : Rekeyed dh (authenticatedRecord K m d.sharedKey t) := by
      have hfull : d.sharedKey.take 56 = d.sharedKey := List.take_of_length_le (not_not.mp hlen).le
      rw [Rekeyed, ← hc.dh, hd]
      exact congrArg some hfull.symm
    refine .bind (R := fun _ t => Gone [] ep node dh t ∧ (∀ e ∈ t.peers.entries, e.1 ^^^ node ∈ ids → e.2.lastEp ≠ ep) ∧
      t.remoteId = K.sha1 m.pubk) (.modify fun t ht => ?_) fun _ => ?_
    · exact ⟨⟨ht.known, ht.nodeId, ht.remoteEp, ht.dh, (fun _ _ h => by cases h), List.not_mem_nil⟩, ht.unlinked, rfl⟩
    refine .bind (R := fun _ t => Left K ids ep node dh t ∧ t.remoteId = K.sha1 m.pubk) (.modify fun t ht => ?_) fun _ => ?_
    · obtain ⟨hgone, hunlinked, hid⟩ := ht
      refine ⟨⟨hgone.known, hgone.nodeId, fun e he hmem => .inl (hunlinked e he hmem), fun _ => ⟨hid ▸ hreproven, ?_⟩⟩, hid⟩
      exact .inr (hrekeyed t)
    refine Post.conseq (Q := fun _ t => Left K ids ep node dh t ∧ t.remoteId = K.sha1 m.pubk)
      (E := fun _ t => Left K ids ep node dh t ∧ t.remoteId = K.sha1 m.pubk) ?_ (fun _ => id) (fun _ _ h => h.1) fun _ _ h => h.1
    refine .bind (C'.sendAuthResponse _) fun _ => .bind (C'.modify fun _ => .of_books rfl) fun _ => ?_
    refine .bind (C.storeRecord _) fun _ => .bind C'.external fun _ => ?_
    exact .bind (C'.gotoState _) fun _ => .bind (C'.resendLookups _) fun _ => .pure fun _ h => h
  · refine .bind ((C.sendAuthResponse _).conseq (fun _ h => h.left) (fun _ _ h => h) fun _ _ h => h) fun _ => ?_
    exact .bind (C.send _ _) fun _ => .pure fun _ h => h

theorem Gone.dispatch (t : MessageType) (payload : Bytes) (first : UInt8) : Post (Gone ids ep node dh)
    (dispatch K t payload first) (fun _ => Left K ids ep node dh) fun _ => Left K ids ep node dh := by
  have C := @Left.closed K ids ep node dh
  have hleft {m : Handler Bool} (h : Preserves (Left K ids ep node dh) m) :
      Post (Gone ids ep node dh) m (fun _ => Left K ids ep node dh) fun _ => Left K ids ep node dh :=
    h.conseq (fun _ h => h.left) (fun _ _ h => h) fun _ _ h => h
  cases t with
  | data => exact hleft C.handleDataMsg
  | auth => exact Gone.handleAuthMsg payload
  | authResp => exact hleft (C.handleAuthRespMsg first)
  | routeLookup =>
    refine hleft (.ite (fun _ => .bind C.external fun _ => .bind (Left.fee _) fun _ => .get_keep fun c _ => ?_)
      fun _ => .throw fun _ h => h)
    split
    · exact .throw fun _ h => h
    · exact .bind (C.send _ _) fun _ => .pure fun _ h => h
  | route => exact hleft (C.handleRouteMsg payload)
  | close => exact hleft (.bind C.reset fun _ => .pure fun _ h => h)
  | updateRank => exact hleft (C.handleUpdateRankMsg payload)
  | reqReverseConnect => exact hleft (.bind C.external fun _ => .bind (Left.fee _) fun _ => .pure fun _ h => h)
  | reqConnect => exact hleft (.bind C.external fun _ => .bind (Left.fee _) fun _ => .pure fun _ h => h)

theorem Gone.tryDecode (b : Bytes) : Post (Gone ids ep node dh) (tryDecode K b)
    (fun _ => Left K ids ep node dh) fun _ => Left K ids ep node dh := by
  refine .ite (fun _ => ?_) fun _ => .pure fun _ hc => hc.left
  refine .bind (R := fun _ => Gone ids ep node dh) (.modify fun c hc => Gone.stable hc (.of_books rfl)) fun _ => ?_
  refine .get_keep fun c hc => ?_
  split
  · exact .throw fun _ hc => hc.left
  refine .ite (fun _ => ?_) fun _ => .pure fun _ hc => hc.left
  exact .bind (handleFrame_post (fun _ hc => hc.left) (fun _ hc => hc.left) fun t payload _ _ =>
    Gone.dispatch t payload _) fun ok => .pure fun _ hc => hc

/-- A record of the endpoint is tried: it is that of another peer. -/
theorem Gone.attempt {b : Bytes} {id : Sha1} {r : PeerRecord} {c : Conn} (hknown : ep ≠ {}) (hnode : c.peers.nodeId = node) (hep : c.remoteEp = ep)
    (hdh : c.dh = dh) (hgone : ∀ e ∈ c.peers.entries, e.1 ^^^ node ∈ ids → e.2.lastEp ≠ ep) (hid : id ∉ ids) :
    Post (fun t => t = c) (attempt K b id r) (fun _ => Left K ids ep node dh) fun _ => Left K ids ep node dh := by
  have C := (@Gone.closed K ids ep node dh).named id
  have hresume : Post (fun t => t = c) (resume K id r) (fun _ => Gone ids ep node dh) fun _ => Gone ids ep node dh := by
    refine Post.conseq (Q := fun _ t => Gone ids ep node dh t ∧ t.remoteId = id)
      (E := fun _ t => Gone ids ep node dh t ∧ t.remoteId = id) ?_ (fun _ h => h) (fun _ _ h => h.1) fun _ _ h => h.1
    refine .bind (R := fun _ t => Gone ids ep node dh t ∧ t.remoteId = id) (.modify ?_) fun _ => ?_
    · rintro t rfl
      exact ⟨⟨hknown, hnode, hep, hdh, hgone, hid⟩, rfl⟩
    refine .bind C.external fun _ => .bind (C.modify fun _ => .of_books rfl) fun _ => ?_
    exact .bind (Gone.closed.storeRecord id) fun _ => C.gotoState _
  exact .bind (hresume.conseq (fun _ h => h) (fun _ _ h => h) fun _ _ h => h.left) fun _ => Gone.tryDecode b

/-- `reset` stores nothing for a blank record. -/
theorem Unlinked.reset : Preserves (fun c => Unlinked K ids ep node dh c ∧ c.record.valid = false) (reset K) := by
  have S : Stable fun c => Unlinked K ids ep node dh c ∧ c.record.valid = false := by
    intro c c' h hs
    rw [Unlinked, hs.peers, hs.remoteId, PeerRecord.valid, hs.publicKey]
    exact h
  refine .get_keep fun c hc => .bind (R := fun _ c => Unlinked K ids ep node dh c ∧ c.record.valid = false)
    (.when (fun hv => ?_) fun _ _ => id) fun _ => ?_
  · exact absurd (hc.2.symm.trans hv) Bool.false_ne_true
  · exact .bind S.external fun _ => .bind S.external fun _ => S.gotoState _

theorem Left.forgetPeer : Post (Left K ids ep node dh) (forgetPeer K)
    (fun _ => Unlinked K ids ep node dh) fun _ => Unlinked K ids ep node dh := by
  have C := @Left.closed K ids ep node dh
  refine .get_bind fun c hc => .named (P := fun t => Left K ids ep node dh t ∧ t.remoteId = c.remoteId) ?_ ⟨hc, rfl⟩
  refine .bind ((C.storeChanged ?_ _ _).conseq (fun _ => id) (fun _ _ => id) fun _ _ h => h.unlinked) fun _ => ?_
  · exact fun _ => ⟨⟨rfl, rfl, rfl, rfl, rfl, .inr rfl⟩, rfl, rfl, .inr ⟨rfl, rfl⟩⟩
  refine Post.bind (R := fun _ c => Unlinked K ids ep node dh c ∧ c.record.valid = false) ?_ ?_
  · exact .modify fun t ht => ⟨ht.unlinked, valid_blank t.remoteEp⟩
  · exact fun _ => Unlinked.reset.conseq (fun _ => id) (fun _ _ h => h.1) fun _ _ h => h.1

end

/-- The peers whose records have failed: the one the connection was connected as, and those `handle_uninit` has resumed, in
the order in which the endpoint index returns them. -/
def failing (K : Crypto) (b : Bytes) (c : Conn) : List Sha1 :=
  match enter K b c with
  | none => []
  | some (d, u) =>
    (if c.curState = .connected ∧ c.record.valid = true then [c.remoteId] else []) ++
      (rounds K u.peers.entries.length d u).1

section
variable {K : Crypto} {b d : Bytes} {c u : Conn} {ep : Endpoint} {node : Sha1} {dh : Option Dh} {es : List (Sha1 × PeerRecord)}

theorem Listed.length_le (h : Listed K ep node dh es c) : es.length ≤ c.peers.entries.length := by
  rw [← h.linked]
  exact List.length_filter_le _ _

end

/-- A frame of the message `[7, 0, 9, 0]` before it is encrypted. -/
def twinPlain : Bytes := [154, 211, 88, 0, 7, 0, 9, 0]

/-- The frame under the Blowfish key of the bytes 57 to 112. -/
def twinCipher : Bytes := [53, 2, 205, 231, 80, 62, 22, 192]

/-- What the Blowfish key of the bytes 1 to 56 makes of it, and what the right key then makes of that. -/
def twinOnce : Bytes := [34, 28, 151, 247, 164, 87, 37, 222]

def twinTwice : Bytes := [150, 206, 95, 25, 210, 131, 181, 51]

def twinKey : Bytes := (List.range 56).map fun i => UInt8.ofNat (i + 57)

def twinSwap (key b : Bytes) : Bytes :=
  if key = rankKey then if b = twinCipher then twinOnce else if b = twinOnce then twinCipher else b
  else if key = twinKey then
    if b = twinCipher then twinPlain else if b = twinPlain then twinCipher
    else if b = twinOnce then twinTwice else if b = twinTwice then twinOnce else b
  else b

/-- The hashes of these blocks and of two public keys, with that cipher. -/
def twinCrypto : Crypto :=
  { xorCrypto with
    sha1 := fun b => if b = List.replicate 256 2 then 0x2ea71ed094afce3ada72bb847eaf1886618ba957
      else if b = List.replicate 256 1 then 0xac458b067c6b021c7e9358229b636e9d1e4cb154 else 0
    superFastHash := fun b => if b = [7, 0, 9, 0] then 0xff58d39a else if b = [164, 87, 37, 222] then 0x96d0245e
      else if b = [210, 131, 181, 51] then 0xdeb86f17 else 0
    decrypt := twinSwap }

/-- The record of a peer that was last seen at `peerEp`. -/
def twinRecord (pubk key : Bytes) : PeerRecord := { PeerRecord.blank peerEp with publicKey := pubk, bfKey := key }

/-- Two records of one endpoint; the key of the second is that of the frame. -/
def twinPeers : PeerDb :=
  ⟨0, [(0x2ea71ed094afce3ada72bb847eaf1886618ba957, twinRecord (List.replicate 256 2) rankKey),
    (0xac458b067c6b021c7e9358229b636e9d1e4cb154, twinRecord (List.replicate 256 1) twinKey)]⟩

theorem twinPeers_sorted : twinPeers.Sorted := by
  rw [PeerDb.Sorted]
  decide +kernel

theorem twinPeers_fit : Fit twinCrypto twinPeers := by
  have hall : (twinPeers.entries.all fun e => decide (twinCrypto.sha1 e.2.publicKey = e.1 ^^^ twinPeers.nodeId ∧ e.2.valid = true)) =
      true := by decide +kernel
  intro e he
  exact of_decide_eq_true (List.all_eq_true.mp hall e he)

/-- A peer that was last seen at `peerEp`, with its id. -/
def peerRecord (pubk key : UInt8) : Sha1 × PeerRecord :=
  (xorCrypto.sha1 (List.replicate 256 pubk),
    { PeerRecord.blank peerEp with publicKey := List.replicate 256 pubk, bfKey := List.replicate 56 key })

end Connection
end Tornet
