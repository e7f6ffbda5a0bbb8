import Tornet.Node.Index

/-! Runs that keep the index coherent: what the operations need so that map, buckets
and counter follow the states of the connections. -/
namespace Tornet.Node
open Library Runs Connection

variable {s : Index} {c : ConnId} {l : Link} {id : Sha1} {b : Fin 161}

/-! ### Membership -/

theorem getElem?_put_self (hl : s.conns[c]? = some l) (l' : Link) : (s.conns.set c l')[c]? = some l' :=
  List.getElem?_set_self (List.getElem?_eq_some_iff.mp hl).1

theorem put_self (hl : s.conns[c]? = some l) : s.put c l = s := by
  obtain ⟨hlt, hget⟩ := List.getElem?_eq_some_iff.mp hl
  simp only [Index.put, ← hget, List.set_getElem_self]

/-- A connection that is not connected is not the value of any key. -/
theorem Inv.not_indexed (h : Inv s) (hl : s.conns[c]? = some l) (hn : l.state ≠ .connected) (d : Sha1) :
    s.distToCon d ≠ some c := by
  intro hd
  obtain ⟨l', hl', hst, -⟩ := h.entry d c hd
  obtain rfl : l = l' := Option.some.inj (hl.symm.trans hl')
  exact hn hst

theorem Inv.not_listed (h : Inv s) (hc : ∀ d, s.distToCon d ≠ some c) (b : Fin 161) :
    c ∉ s.kbuckets.buckets b := by
  intro hb
  obtain ⟨d, -, hd, -⟩ := h.listed b c hb
  exact hc d hd

/-- A connected connection stands once in the bucket of its id, and in no other. -/
theorem Inv.own_bucket (h : Inv s) (hl : s.conns[c]? = some l) (hst : l.state = .connected) :
    ∃ b, s.kbuckets.bucketFor l.remoteId = some b ∧ (s.kbuckets.buckets b).count c = 1 ∧
      ∀ b', c ∈ s.kbuckets.buckets b' → b' = b := by
  obtain ⟨l', b, hl', hb, hcount⟩ := h.placed _ c (h.own c l hl hst)
  obtain rfl : l = l' := Option.some.inj (hl.symm.trans hl')
  refine ⟨b, hb, hcount, fun b' hb' => ?_⟩
  obtain ⟨-, l', -, hl'', hbl⟩ := h.listed b' c hb'
  obtain rfl : l = l' := Option.some.inj (hl.symm.trans hl'')
  exact Option.some.inj (hbl.symm.trans hb)

/-! ### The three changes -/

/-- A connection outside the index may change while it stays outside. -/
theorem Inv.relink (h : Inv s) (hl : s.conns[c]? = some l) (hn : l.state ≠ .connected) {l' : Link}
    (hn' : l'.state ≠ .connected) : Inv (s.put c l') := by
  have old {d : Sha1} {c' : ConnId} {m : Link} (hd : s.distToCon d = some c') (hm : s.conns[c']? = some m) :
      (s.put c l').conns[c']? = some m := by
    have hne : c ≠ c' := fun he => h.not_indexed hl hn d (he ▸ hd)
    exact (List.getElem?_set_ne hne).trans hm
  refine ⟨⟨?_, ?_, ?_, ?_, h.counted⟩, h.sameId⟩
  · intro d c' hd
    obtain ⟨m, hm, hrest⟩ := h.entry d c' hd
    exact ⟨m, old hd hm, hrest⟩
  · intro c' m hm hst
    rcases eq_or_ne c c' with rfl | hne
    · obtain rfl : l' = m := Option.some.inj ((getElem?_put_self hl l').symm.trans hm)
      exact absurd hst hn'
    · exact h.own c' m ((List.getElem?_set_ne hne).symm.trans hm) hst
  · intro d c' hd
    obtain ⟨m, b, hm, hrest⟩ := h.placed d c' hd
    exact ⟨m, b, old hd hm, hrest⟩
  · intro b c' hc'
    obtain ⟨d, m, hd, hm, hrest⟩ := h.listed b c' hc'
    exact ⟨d, m, hd, old hd hm, hrest⟩

/-- The node may take up `id`: it is another node's, no connection has it, and the counter
has room. -/
def Fresh (s : Index) (id : Sha1) : Prop :=
  id ≠ s.id ∧ s.distToCon (id ^^^ s.id) = none ∧ s.kbuckets.count.toNat + 1 < 2 ^ 32

instance (s : Index) (id : Sha1) : Decidable (Fresh s id) := inferInstanceAs (Decidable (_ ∧ _ ∧ _))

/-- `s` with the connection `c` entered under `id`. -/
def Index.attach (s : Index) (c : ConnId) (id : Sha1) (b : Fin 161) : Index where
  id := s.id
  conns := s.conns.set c ⟨.connected, id⟩
  distToCon := Function.update s.distToCon (id ^^^ s.id) (some c)
  kbuckets := { s.kbuckets with
    buckets := Function.update s.kbuckets.buckets b (s.kbuckets.buckets b ++ [c])
    count := s.kbuckets.count + 1 }

private theorem distToCon_attach {d : Sha1} {c' : ConnId} (hd : (s.attach c id b).distToCon d = some c') :
    (d = id ^^^ s.id ∧ c' = c) ∨ s.distToCon d = some c' := by
  rcases eq_or_ne d (id ^^^ s.id) with rfl | hne
  · have hself : some c = some c' := by simpa [Index.attach] using hd
    exact .inl ⟨rfl, (Option.some.inj hself).symm⟩
  · exact .inr ((Function.update_of_ne hne _ _).symm.trans hd)

private theorem mem_bucket_attach {b' : Fin 161} {c' : ConnId} (hc' : c' ∈ (s.attach c id b).kbuckets.buckets b') :
    (b' = b ∧ c' = c) ∨ c' ∈ s.kbuckets.buckets b' := by
  rcases eq_or_ne b' b with rfl | hbne
  · have hmem : c' ∈ s.kbuckets.buckets b' ++ [c] := by simpa [Index.attach] using hc'
    rcases List.mem_append.mp hmem with hold | hnew
    · exact .inr hold
    · exact .inl ⟨rfl, List.mem_singleton.mp hnew⟩
  · exact .inr (by simpa [Index.attach, Function.update_of_ne hbne] using hc')

/-- The counter goes with the number of entries, as long as it has room. -/
theorem counted_attach (h : s.kbuckets.count.toNat = s.kbuckets.total) (hroom : s.kbuckets.count.toNat + 1 < 2 ^ 32) :
    (s.attach c id b).kbuckets.count.toNat = (s.attach c id b).kbuckets.total := by
  have htotal := s.kbuckets.total_update b (s.kbuckets.buckets b ++ [c]) (s.kbuckets.count + 1)
  have hadd : (s.kbuckets.count + 1).toNat = s.kbuckets.count.toNat + 1 := by
    rw [BitVec.toNat_add]
    exact Nat.mod_eq_of_lt hroom
  simp only [List.length_append, List.length_singleton] at htotal
  simp only [Index.attach, hadd]
  omega

theorem Inv.attach (h : Inv s) (hl : s.conns[c]? = some l) (hn : l.state ≠ .connected) (hf : Fresh s id)
    (hb : s.kbuckets.bucketFor id = some b) : Inv (s.attach c id b) := by
  have hout := h.not_indexed hl hn
  have old {d : Sha1} {c' : ConnId} {m : Link} (hd : s.distToCon d = some c') (hm : s.conns[c']? = some m) :
      (s.attach c id b).conns[c']? = some m := by
    have hne : c ≠ c' := fun he => hout d (he ▸ hd)
    exact (List.getElem?_set_ne hne).trans hm
  have new : (s.attach c id b).conns[c]? = some ⟨.connected, id⟩ := getElem?_put_self hl _
  have keep {d : Sha1} {c' : ConnId} (hd : s.distToCon d = some c') : (s.attach c id b).distToCon d = some c' := by
    have hne : d ≠ id ^^^ s.id := by
      rintro rfl
      cases hd.symm.trans hf.2.1
    exact (Function.update_of_ne hne _ _).trans hd
  refine ⟨⟨?_, ?_, ?_, ?_, counted_attach h.counted hf.2.2⟩, h.sameId⟩
  · intro d c' hd
    rcases distToCon_attach hd with ⟨rfl, rfl⟩ | hd
    · exact ⟨_, new, rfl, rfl⟩
    · obtain ⟨m, hm, hrest⟩ := h.entry d c' hd
      exact ⟨m, old hd hm, hrest⟩
  · intro c' m hm hst
    rcases eq_or_ne c c' with rfl | hne
    · obtain rfl : _ = m := Option.some.inj (new.symm.trans hm)
      exact Function.update_self _ _ _
    · exact keep (h.own c' m ((List.getElem?_set_ne hne).symm.trans hm) hst)
  · intro d c' hd
    rcases distToCon_attach hd with ⟨rfl, rfl⟩ | hd
    · refine ⟨_, b, new, hb, ?_⟩
      have hzero : (s.kbuckets.buckets b).count c' = 0 := List.count_eq_zero.mpr (h.not_listed hout b)
      simp [Index.attach, hzero]
    · obtain ⟨m, b', hm, hbm, hcount⟩ := h.placed d c' hd
      refine ⟨m, b', old hd hm, hbm, ?_⟩
      have hne : c ≠ c' := fun he => hout d (he ▸ hd)
      rcases eq_or_ne b' b with rfl | hbne
      · simpa [Index.attach, List.count_singleton, hne] using hcount
      · simpa [Index.attach, Function.update_of_ne hbne] using hcount
  · intro b' c' hc'
    rcases mem_bucket_attach hc' with ⟨rfl, rfl⟩ | hold
    · exact ⟨_, _, Function.update_self _ _ _, new, hb⟩
    · obtain ⟨d, m, hd, hm, hrest⟩ := h.listed b' c' hold
      exact ⟨d, m, keep hd, old hd hm, hrest⟩

/-- `s` with the connected connection `c` taken out. -/
def Index.detach (s : Index) (c : ConnId) (l : Link) (b : Fin 161) : Index where
  id := s.id
  conns := s.conns.set c { l with state := .uninit }
  distToCon := Function.update s.distToCon (l.remoteId ^^^ s.id) none
  kbuckets := { s.kbuckets with
    buckets := Function.update s.kbuckets.buckets b ((s.kbuckets.buckets b).erase c)
    count := s.kbuckets.count - 1 }

private theorem distToCon_detach {d : Sha1} {c' : ConnId} (hd : (s.detach c l b).distToCon d = some c') :
    d ≠ l.remoteId ^^^ s.id ∧ s.distToCon d = some c' := by
  rcases eq_or_ne d (l.remoteId ^^^ s.id) with rfl | hne
  · simp [Index.detach] at hd
  · exact ⟨hne, (Function.update_of_ne hne _ _).symm.trans hd⟩

/-- The only occurrence of the connection is the one that goes. -/
theorem mem_bucket_detach (hone : (s.kbuckets.buckets b).count c = 1)
    (honly : ∀ b', c ∈ s.kbuckets.buckets b' → b' = b) {b' : Fin 161} {c' : ConnId}
    (hc' : c' ∈ (s.detach c l b).kbuckets.buckets b') : c ≠ c' ∧ c' ∈ s.kbuckets.buckets b' := by
  rcases eq_or_ne b' b with rfl | hbne
  · have herase : c' ∈ (s.kbuckets.buckets b').erase c := by simpa [Index.detach] using hc'
    refine ⟨?_, List.mem_of_mem_erase herase⟩
    rintro rfl
    have hzero : ((s.kbuckets.buckets b').erase c).count c = 0 := by
      rw [List.count_erase_self, hone]
    exact List.count_eq_zero.mp hzero herase
  · have hin : c' ∈ s.kbuckets.buckets b' := by
      simpa [Index.detach, Function.update_of_ne hbne] using hc'
    exact ⟨fun he => hbne (honly b' (he ▸ hin)), hin⟩

private theorem counted_detach (h : s.kbuckets.count.toNat = s.kbuckets.total) (hin : c ∈ s.kbuckets.buckets b) :
    (s.detach c l b).kbuckets.count.toNat = (s.detach c l b).kbuckets.total := by
  have htotal := s.kbuckets.total_update b ((s.kbuckets.buckets b).erase c) (s.kbuckets.count - 1)
  have hlen := List.length_erase_add_one hin
  have hsub : (s.kbuckets.count - 1).toNat = s.kbuckets.count.toNat - 1 := by
    have hpos : 1 ≤ s.kbuckets.count.toNat := by omega
    bv_omega
  simp only [Index.detach, hsub]
  omega

theorem Inv.detach (h : Inv s) (hl : s.conns[c]? = some l) (hst : l.state = .connected)
    (hb : s.kbuckets.bucketFor l.remoteId = some b) (hone : (s.kbuckets.buckets b).count c = 1)
    (honly : ∀ b', c ∈ s.kbuckets.buckets b' → b' = b) : Inv (s.detach c l b) := by
  have hown := h.own c l hl hst
  have other {d : Sha1} {c' : ConnId} (hd : s.distToCon d = some c') (hne : d ≠ l.remoteId ^^^ s.id) : c ≠ c' := by
    rintro rfl
    obtain ⟨m, hm, -, hkey⟩ := h.entry d c hd
    obtain rfl : l = m := Option.some.inj (hl.symm.trans hm)
    exact hne hkey.symm
  have old {c' : ConnId} {m : Link} (hne : c ≠ c') (hm : s.conns[c']? = some m) :
      (s.detach c l b).conns[c']? = some m :=
    (List.getElem?_set_ne hne).trans hm
  have hin : c ∈ s.kbuckets.buckets b := List.count_pos_iff.mp (by omega)
  refine ⟨⟨?_, ?_, ?_, ?_, counted_detach h.counted hin⟩, h.sameId⟩
  · intro d c' hd
    obtain ⟨hne, hd⟩ := distToCon_detach hd
    obtain ⟨m, hm, hrest⟩ := h.entry d c' hd
    exact ⟨m, old (other hd hne) hm, hrest⟩
  · intro c' m hm hm'
    rcases eq_or_ne c c' with rfl | hne
    · obtain rfl : _ = m := Option.some.inj ((getElem?_put_self hl _).symm.trans hm)
      cases hm'
    · have hc' := h.own c' m ((List.getElem?_set_ne hne).symm.trans hm) hm'
      have hkey : m.remoteId ^^^ s.id ≠ l.remoteId ^^^ s.id := fun he =>
        hne (Option.some.inj (hown.symm.trans (he ▸ hc')))
      exact (Function.update_of_ne hkey _ _).trans hc'
  · intro d c' hd
    obtain ⟨hkey, hd'⟩ := distToCon_detach hd
    have hne := other hd' hkey
    obtain ⟨m, b', hm, hbm, hcount⟩ := h.placed d c' hd'
    refine ⟨m, b', old hne hm, hbm, ?_⟩
    rcases eq_or_ne b' b with rfl | hbne
    · simpa [Index.detach, List.count_erase_of_ne hne.symm] using hcount
    · simpa [Index.detach, Function.update_of_ne hbne] using hcount
  · intro b' c' hc'
    have hmem := mem_bucket_detach hone honly hc'
    obtain ⟨d, m, hd, hm, hrest⟩ := h.listed b' c' hmem.2
    have hne : d ≠ l.remoteId ^^^ s.id := by
      rintro rfl
      exact hmem.1 (Option.some.inj (hown.symm.trans hd))
    exact ⟨d, m, (Function.update_of_ne hne _ _).trans hd, old hmem.1 hm, hrest⟩

/-! ### The operations -/

private theorem bucketFor_of_fresh (h : Inv s) (hf : Fresh s id) : ∃ b, s.kbuckets.bucketFor id = some b :=
  Kbucket.bucketFor_isSome (h.sameId.symm ▸ hf.1)

/-- A connection that takes up a fresh id enters the index. -/
theorem connect_spec (h : Inv s) (hl : s.conns[c]? = some l) (hn : l.state ≠ .connected) (hf : Fresh s id) :
    ∃ s', s.connect c id = some s' ∧ Inv s' := by
  obtain ⟨b, hb⟩ := bucketFor_of_fresh h hf
  refine ⟨s.attach c id b, ?_, h.attach hl hn hf hb⟩
  have hadd : (s.put c { l with remoteId := id }).kbuckets.add c id = _ := Kbucket.add_eq (k := s.kbuckets) hb
  simp only [Index.connect, hl, Option.bind_eq_bind, Option.bind_some, Index.updateDistIndex]
  have hnone : (s.put c { l with remoteId := id }).distToCon (id ^^^ (s.put c { l with remoteId := id }).id) =
      none := hf.2.1
  rw [hnone]
  have hget : (s.put c { l with remoteId := id }).conns[c]? = some { l with remoteId := id } :=
    getElem?_put_self hl _
  simp only [hget, Option.bind_some, hadd]
  simp only [Index.put, Index.attach, List.set_set]

/-- Authenticating again under the same id changes nothing. -/
theorem reconnect_spec (h : Inv s) (hl : s.conns[c]? = some l) (hst : l.state = .connected) :
    s.connect c l.remoteId = some s := by
  have hsame := put_self hl
  obtain ⟨st, rid⟩ := l
  subst hst
  simp only [Index.connect, hl, Option.bind_eq_bind, Option.bind_some, Index.updateDistIndex, hsame]
  rw [h.own c _ hl rfl]
  simp only [if_pos, Option.bind_some, hsame]

/-- A reset takes a connected connection out; of another one it may find no entry. -/
theorem reset_spec (h : Inv s) (hl : s.conns[c]? = some l)
    (hok : l.state = .connected ∨ s.distToCon (l.remoteId ^^^ s.id) = none) :
    ∃ s', s.reset c = some s' ∧ Inv s' := by
  simp only [Index.reset, hl, Option.bind_eq_bind, Option.bind_some, Index.clearDistIndex]
  by_cases hst : l.state = .connected
  · obtain ⟨b, hb, hone, honly⟩ := h.own_bucket hl hst
    refine ⟨s.detach c l b, ?_, h.detach hl hst hb hone honly⟩
    have hin : c ∈ s.kbuckets.buckets b := List.count_pos_iff.mp (by omega)
    rw [h.own c l hl hst]
    simp only [hl, Option.bind_some, Kbucket.remove_eq hb hin]
    rfl
  · have hnone := hok.resolve_left hst
    rw [hnone]
    exact ⟨_, rfl, h.relink hl hst (by simp)⟩

theorem create_spec (h : Inv s) : Inv s.create := by
  have old {c : ConnId} {m : Link} (hm : s.conns[c]? = some m) : s.create.conns[c]? = some m :=
    List.getElem?_append_left (List.getElem?_eq_some_iff.mp hm).1 ▸ hm
  refine ⟨⟨?_, ?_, ?_, ?_, h.counted⟩, h.sameId⟩
  · intro d c hd
    obtain ⟨m, hm, hrest⟩ := h.entry d c hd
    exact ⟨m, old hm, hrest⟩
  · intro c m hm hst
    rcases Nat.lt_or_ge c s.conns.length with hlt | hge
    · exact h.own c m ((List.getElem?_append_left hlt).symm.trans hm) hst
    · -- the new connection is not connected
      have hnew : [({} : Link)][c - s.conns.length]? = some m :=
        (List.getElem?_append_right hge).symm.trans hm
      have hmem : m ∈ [({} : Link)] := List.mem_of_getElem? hnew
      obtain rfl := List.mem_singleton.mp hmem
      cases hst
  · intro d c hd
    obtain ⟨m, b, hm, hrest⟩ := h.placed d c hd
    exact ⟨m, b, old hm, hrest⟩
  · intro b c hc
    obtain ⟨d, m, hd, hm, hrest⟩ := h.listed b c hc
    exact ⟨d, m, hd, old hm, hrest⟩

/-! ### Runs -/

/-- The connection exists and meets `P`. -/
def Index.OnLink (s : Index) (c : ConnId) (P : Link → Prop) : Prop := ∃ l, l ∈ s.conns[c]? ∧ P l

instance (s : Index) (c : ConnId) (P : Link → Prop) [DecidablePred P] : Decidable (s.OnLink c P) :=
  inferInstanceAs (Decidable (∃ l, l ∈ s.conns[c]? ∧ P l))

/-- The key of a connection that is reset is its own or nobody's. -/
def Index.Resettable (s : Index) (l : Link) : Prop :=
  l.state = .connected ∨ s.distToCon (l.remoteId ^^^ s.id) = none

instance (s : Index) (l : Link) : Decidable (s.Resettable l) := inferInstanceAs (Decidable (_ ∨ _))

/-- What an operation needs: an id is taken up only by a connection that is not connected and
only when it is fresh, a connected one may only authenticate again as itself, a positive auth
response and a tenth `advance` change no state into or out of `connected`, and a reset does not
hit the entry of another connection. -/
def Regular (s : Index) : Op → Prop
  | .create none => True
  | .create (some id) => Fresh s id
  | .resume c id => s.OnLink c fun l => l.state = .uninit ∧ Fresh s id
  | .exchange c st => s.OnLink c fun l => keyExchange l.state st = true
  | .authenticate c id => s.OnLink c fun l =>
    decodes l.state = true ∧ if l.state = .connected then id = l.remoteId else Fresh s id
  | .authResp c accepted => s.OnLink c fun l =>
    decodes l.state = true ∧ if accepted then l.state = .connected else s.Resettable l
  | .reset c | .close c => s.OnLink c s.Resettable
  | .giveUp c => s.OnLink c fun l => l.state ≠ .connected

instance (s : Index) : (op : Op) → Decidable (Regular s op)
  | .create none => isTrue trivial
  | .create (some id) => inferInstanceAs (Decidable (Fresh s id))
  | .resume _ _ | .exchange _ _ | .authenticate _ _ | .authResp _ _ | .reset _ | .close _ | .giveUp _ => by
    rw [Regular]
    infer_instance

private theorem keyExchange_apart {st st' : State} (h : keyExchange st st' = true) :
    st ≠ .connected ∧ st' ≠ .connected := by
  revert h
  cases st <;> cases st' <;> decide

theorem step_spec (h : Inv s) {op : Op} (hop : Regular s op) : ∃ s', step s op = some s' ∧ Inv s' := by
  cases op with
  | create found =>
    cases found with
    | none => exact ⟨_, rfl, create_spec h⟩
    | some id =>
      have hnew : s.create.conns[s.conns.length]? = some {} := List.getElem?_concat_length
      exact connect_spec (create_spec h) hnew (by decide) hop
  | resume c id =>
    obtain ⟨l, hl, hst, hf⟩ := hop
    obtain ⟨s', hs', hinv⟩ := connect_spec h hl (by simp [hst]) hf
    exact ⟨s', by simp [step, Option.mem_def.mp hl, hst, hs'], hinv⟩
  | exchange c st =>
    obtain ⟨l, hl, hk⟩ := hop
    obtain ⟨hn, hn'⟩ := keyExchange_apart hk
    exact ⟨_, by simp [step, Option.mem_def.mp hl, hk]; rfl, h.relink hl hn hn'⟩
  | authenticate c id =>
    obtain ⟨l, hl, hdec, hid⟩ := hop
    simp only [step, Option.mem_def.mp hl, Option.bind_eq_bind, Option.bind_some, if_pos hdec]
    split_ifs at hid with hst
    · exact ⟨s, hid ▸ reconnect_spec h hl hst, h⟩
    · exact connect_spec h hl hst hid
  | authResp c accepted =>
    obtain ⟨l, hl, hdec, hacc⟩ := hop
    simp only [step, Option.mem_def.mp hl, Option.bind_eq_bind, Option.bind_some, if_pos hdec]
    split_ifs at hacc with ha
    · have hsame : s.put c { l with state := .connected } = s := by
        rw [← hacc]
        exact put_self hl
      exact ⟨s, by rw [if_pos ha, hsame], h⟩
    · rw [if_neg ha]
      exact reset_spec h hl hacc
  | reset c =>
    obtain ⟨l, hl, hok⟩ := hop
    exact reset_spec h hl hok
  | close c =>
    obtain ⟨l, hl, hok⟩ := hop
    exact reset_spec h hl hok
  | giveUp c =>
    obtain ⟨l, hl, hn⟩ := hop
    exact ⟨_, by simp [step, Option.mem_def.mp hl]; rfl, h.relink hl hn (by simp)⟩

/-- A regular run is defined to its end, and leaves the index coherent. -/
theorem coherent_of_regular (id : Sha1) (ops : List Op) (hg : Guarded step Regular (.init id 0) ops) :
    ∃ s, run step (.init id 0) ops = some s ∧ Coherent s := by
  obtain ⟨s, hr, hinv⟩ := progress_of_guarded Inv (fun s op h hop => step_spec h hop) (inv_init id) hg
  exact ⟨s, hr, hinv.toCoherent⟩

/-- Two peers come and go; one of them authenticates twice under its own id. -/
def regularRun : List Op :=
  [.create none, .exchange 0 .generatedDh, .exchange 0 .receivedDh, .authenticate 0 5, .authenticate 0 5,
    .create (some 6), .close 0, .authResp 1 true, .exchange 0 .receivedDh, .authenticate 0 5, .reset 1]

theorem coherent_of_regular_reauth : ∃ s, run step (.init 9 0) regularRun = some s ∧ Coherent s :=
  coherent_of_regular 9 regularRun (by decide +kernel)

/-- A second authentication under another id leaves the entry of the first behind. -/
theorem stale_entry : ∃ s, run step (.init 9 0)
    [.create none, .exchange 0 .receivedDh, .authenticate 0 5, .authenticate 0 6] = some s ∧
      s.distToCon (5 ^^^ 9) = some 0 ∧ s.conns[0]? = some ⟨.connected, 6⟩ ∧ ¬ Coherent s := by
  have hrun : ∃ s, s ∈ run step (.init 9 0)
      [.create none, .exchange 0 .receivedDh, .authenticate 0 5, .authenticate 0 6] ∧ s.id = 9 ∧
      s.distToCon (5 ^^^ 9) = some 0 ∧ s.conns[0]? = some ⟨.connected, 6⟩ := by decide +kernel
  obtain ⟨s, hs, hid, hd, hl⟩ := hrun
  refine ⟨s, hs, hd, hl, fun hc => ?_⟩
  obtain ⟨l, hl', -, hkey⟩ := hc.entry _ 0 hd
  obtain rfl : ⟨.connected, 6⟩ = l := Option.some.inj (hl.symm.trans hl')
  rw [hid] at hkey
  exact absurd hkey (by decide)

end Tornet.Node
