import Mathlib.Data.List.Permutation
import Tornet.Rpc.Basic
import Tornet.Udt.Frames

/-! The byte stream several calls of `send` leave for the peer, when no call begins or goes on while
another is between two of its packets. -/
namespace Tornet.Rpc
open Library Runs Udt

variable {C : Codec RpcMessage} {s s' : Sender} {i : Nat} {m : RpcMessage} {rest : List UInt8}

/-! ### The read loop -/

/-- No message packs to nothing: the stream would not tell it from another. -/
theorem pack_ne_nil (C : Codec RpcMessage) (m : RpcMessage) : C.pack m ≠ [] := by
  intro hnil
  have hother := C.unpack_pack { m with id := m.id + 1 } []
  have hself := C.unpack_pack m (C.pack { m with id := m.id + 1 })
  rw [List.append_nil] at hother
  rw [hnil, List.nil_append, hother] at hself
  have hid : m.id + 1 = m.id := congrArg RpcMessage.id (Prod.mk.inj (Option.some.inj hself)).1
  simp at hid

private theorem readLoop_flatMap (C : Codec RpcMessage) (ms : List RpcMessage) (fuel : Nat) (hf : ms.length ≤ fuel) :
    readLoop C fuel (ms.flatMap C.pack) = ms := by
  induction ms generalizing fuel with
  | nil => cases fuel <;> simp [readLoop]
  | cons m ms ih =>
    obtain ⟨fuel, rfl⟩ : ∃ k, fuel = k + 1 := ⟨fuel - 1, by simp at hf; omega⟩
    have hne : C.pack m ++ ms.flatMap C.pack ≠ [] := by simp [pack_ne_nil C m]
    rw [List.flatMap_cons, readLoop, if_neg hne, C.unpack_pack]
    simp only [ih fuel (by simpa using hf)]

theorem length_le_flatMap (C : Codec RpcMessage) (ms : List RpcMessage) : ms.length ≤ (ms.flatMap C.pack).length := by
  induction ms with
  | nil => simp
  | cons m ms ih =>
    have := List.length_pos_iff.mpr (pack_ne_nil C m)
    simp only [List.flatMap_cons, List.length_append, List.length_cons]
    omega

/-! ### What has been sent -/

/-- What the peer gets is a prefix of the payloads by number. -/
theorem delivered_prefix {sent : List DataPacket} {chunks : List (List UInt8)}
    (hsent : ∀ dp ∈ sent, 1 ≤ dp.idx ∧ chunks[dp.idx - 1]? = some dp.data) (fuel k : Nat) (hk : 1 ≤ k) :
    delivered sent fuel k <+: (chunks.drop (k - 1)).flatten := by
  induction fuel generalizing k with
  | zero => exact List.nil_prefix
  | succ fuel ih =>
    rw [delivered]
    split
    · exact List.nil_prefix
    · rename_i dp hfind
      obtain rfl : dp.idx = k := by simpa using List.find?_some hfind
      have hdata := (hsent dp (List.mem_of_find?_eq_some hfind)).2
      rw [List.drop_eq_getElem?_toList_append, hdata]
      simp only [Option.toList_some, List.singleton_append, List.flatten_cons]
      have hrec := ih (dp.idx + 1) (by omega)
      rw [show dp.idx - 1 + 1 = dp.idx + 1 - 1 by omega]
      exact (List.prefix_append_right_inj _).mpr hrec

/-- With every number sent, it is all of them. -/
theorem delivered_eq {sent : List DataPacket} {chunks : List (List UInt8)}
    (hsent : ∀ dp ∈ sent, 1 ≤ dp.idx ∧ chunks[dp.idx - 1]? = some dp.data)
    (hall : ∀ k, 1 ≤ k → k ≤ chunks.length → ∃ dp ∈ sent, dp.idx = k) (fuel k : Nat) (hk : 1 ≤ k)
    (hf : chunks.length + 1 ≤ fuel + k) : delivered sent fuel k = (chunks.drop (k - 1)).flatten := by
  induction fuel generalizing k with
  | zero =>
    rw [List.drop_of_length_le (by omega)]
    rfl
  | succ fuel ih =>
    rw [delivered]
    rcases Nat.lt_or_ge chunks.length k with hend | hin
    · have hnone : sent.find? (fun dp => dp.idx = k) = none := by
        refine List.find?_eq_none.mpr fun dp hdp => ?_
        obtain ⟨h1, hget⟩ := hsent dp hdp
        have hlt := (List.getElem?_eq_some_iff.mp hget).1
        simp only [decide_eq_true_eq]
        omega
      rw [hnone, List.drop_of_length_le (by omega)]
      rfl
    · obtain ⟨dp, hdp, hidx⟩ := hall k hk hin
      have hsome : (sent.find? (fun dp => dp.idx = k)).isSome := by
        exact List.find?_isSome.mpr ⟨dp, hdp, by simpa using hidx⟩
      obtain ⟨d, hd⟩ := Option.isSome_iff_exists.mp hsome
      rw [hd]
      obtain rfl : d.idx = k := by simpa using List.find?_some hd
      have hdata := (hsent d (List.mem_of_find?_eq_some hd)).2
      rw [List.drop_eq_getElem?_toList_append, hdata]
      simp only [Option.toList_some, List.singleton_append, List.flatten_cons]
      rw [show d.idx - 1 + 1 = d.idx + 1 - 1 by omega, ih (d.idx + 1) (by omega) (by omega)]

/-! ### The invariant -/

def Progress.begun : Progress → Bool
  | .running _ begun => begun
  | .blocked _ _ | .completed | .failed => true

def Progress.left : Progress → List UInt8
  | .running rest _ | .blocked _ rest => rest
  | .completed | .failed => []

/-- The bytes of a begun message that have no number yet. -/
def Call.pending (c : Call) : List UInt8 := if c.progress.begun then c.progress.left else []

theorem Call.pending_of_not_mid {c : Call} (h : c.progress.mid = false) : c.pending = [] := by
  obtain ⟨m, p⟩ := c
  cases p <;> simp_all [Call.pending, Progress.begun, Progress.mid, Progress.left]

theorem Progress.begun_after (rest : List UInt8) : (Progress.after rest true).begun = true := by
  rw [Progress.after]
  split_ifs <;> rfl

theorem Call.pending_after (m : RpcMessage) (rest : List UInt8) :
    Call.pending ⟨m, Progress.after rest true⟩ = rest := by
  rw [Call.pending]
  rw [Progress.begun_after, if_pos rfl]
  rw [Progress.after]
  split_ifs with h
  · exact h.symm
  · rfl

/-- The messages of the begun calls, in the order of the calls. -/
def begunMsgs (calls : List Call) : List RpcMessage := (calls.filter fun c => c.progress.begun).map Call.msg

theorem begunMsgs_of_begun {before after : List Call} {c : Call} (h : c.progress.begun = true) :
    begunMsgs (before ++ c :: after) = begunMsgs before ++ c.msg :: begunMsgs after := by
  simp [begunMsgs, List.filter_append, h]

private theorem begunMsgs_of_not_begun {before after : List Call} {c : Call} (h : c.progress.begun = false) :
    begunMsgs (before ++ c :: after) = begunMsgs before ++ begunMsgs after := by
  simp [begunMsgs, List.filter_append, h]

theorem flatMap_pending_eq_nil {calls : List Call} (h : ∀ c ∈ calls, c.progress.mid = false) :
    calls.flatMap Call.pending = [] :=
  List.flatMap_eq_nil_iff.mpr fun c hc => Call.pending_of_not_mid (h c hc)

def Numbered (chunks : List (List UInt8)) (dp : DataPacket) : Prop :=
  1 ≤ dp.idx ∧ chunks[dp.idx - 1]? = some dp.data

theorem Numbered.append {chunks : List (List UInt8)} {dp : DataPacket} (h : Numbered chunks dp)
    (payload : List UInt8) : Numbered (chunks ++ [payload]) dp :=
  ⟨h.1, (List.getElem?_append_left (List.getElem?_eq_some_iff.mp h.2).1).trans h.2⟩

/-- The numbered payloads spell the begun messages one after the other, up to the bytes of the
message that is between two packets; a number is sent or held by a call that waits. -/
structure Inv (C : Codec RpcMessage) (s : Sender) : Prop where
  idx : s.ch.nextTxIdx = s.chunks.length
  alive : ∀ c ∈ s.calls, c.progress ≠ .failed
  fresh : ∀ c ∈ s.calls, ∀ rest, c.progress = .running rest false → rest = C.pack c.msg
  sent : ∀ dp ∈ s.sent, Numbered s.chunks dp
  held : ∀ c ∈ s.calls, ∀ dp rest, c.progress = .blocked dp rest → Numbered s.chunks dp
  covered : ∀ k, 1 ≤ k → k ≤ s.chunks.length →
    (∃ dp ∈ s.sent, dp.idx = k) ∨ ∃ c ∈ s.calls, ∃ dp rest, c.progress = .blocked dp rest ∧ dp.idx = k
  text : ∃ ms : List RpcMessage, ms.Perm (begunMsgs s.calls) ∧
    ms.flatMap C.pack = s.chunks.flatten ++ s.calls.flatMap Call.pending

theorem inv_init (C : Codec RpcMessage) (mwp : BitVec 16) : Inv C (.init mwp) where
  idx := rfl
  alive _ h := by cases h
  fresh _ h := by cases h
  sent _ h := by cases h
  held _ h := by cases h
  covered k h1 h2 := by simp [Sender.init] at h2; omega
  text := ⟨[], .refl _, rfl⟩

/-- The call at `i` and the calls around it. -/
theorem split_at {c : Call} (h : s.calls[i]? = some c) :
    ∃ before after, s.calls = before ++ c :: after ∧ s.calls.eraseIdx i = before ++ after ∧
      ∀ c', (s.put i c').calls = before ++ c' :: after := by
  obtain ⟨hlt, rfl⟩ := List.getElem?_eq_some_iff.mp h
  refine ⟨s.calls.take i, s.calls.drop (i + 1), ?_, List.eraseIdx_eq_take_drop_succ _ _, fun c' => ?_⟩
  · rw [List.getElem_cons_drop, List.take_append_drop]
  · exact List.set_eq_take_append_cons_drop.trans (if_pos hlt)

/-- A packet that waits is sent: the message text does not change. -/
theorem push_inv {dp : DataPacket} (h : Inv C s) (hc : s.calls[i]? = some ⟨m, .blocked dp rest⟩) :
    Inv C ({ s with ch := (s.ch.sendPacket dp).1, sent := s.sent ++ [dp] }.put i ⟨m, .after rest true⟩) := by
  obtain ⟨before, after, hcalls, -, hput⟩ := split_at hc
  have hnew : ({ s with ch := (s.ch.sendPacket dp).1, sent := s.sent ++ [dp] }.put i
      ⟨m, .after rest true⟩).calls = before ++ ⟨m, .after rest true⟩ :: after := hput _
  have hafter : Progress.after rest true = .completed ∨ Progress.after rest true = .running rest true := by
    unfold Progress.after
    split_ifs
    · exact .inl rfl
    · exact .inr rfl
  have hmem {c : Call} (hin : c ∈ before ++ ⟨m, .after rest true⟩ :: after) :
      c = ⟨m, .after rest true⟩ ∨ c ∈ s.calls := by
    rw [hcalls]
    simp only [List.mem_append, List.mem_cons] at hin ⊢
    tauto
  refine ⟨h.idx, ?_, ?_, ?_, ?_, ?_, ?_⟩
  · intro c hin
    rw [hnew] at hin
    rcases hmem hin with rfl | hold
    · rcases hafter with he | he <;> simp [he]
    · exact h.alive c hold
  · intro c hin r hr
    rw [hnew] at hin
    rcases hmem hin with rfl | hold
    · rcases hafter with he | he <;> simp [he] at hr
    · exact h.fresh c hold r hr
  · intro d hd
    rcases List.mem_append.mp hd with hold | hone
    · exact h.sent d hold
    · obtain rfl := List.mem_singleton.mp hone
      exact h.held _ (List.mem_of_getElem? hc) d rest rfl
  · intro c hin d r hr
    rw [hnew] at hin
    rcases hmem hin with rfl | hold
    · rcases hafter with he | he <;> simp [he] at hr
    · exact h.held c hold d r hr
  · intro k h1 h2
    rw [hnew]
    rcases h.covered k h1 h2 with ⟨d, hd, hk⟩ | ⟨c, hin, d, r, hr, hk⟩
    · exact .inl ⟨d, List.mem_append_left _ hd, hk⟩
    · rw [hcalls] at hin
      rcases List.mem_append.mp hin with hb | hb
      · exact .inr ⟨c, List.mem_append_left _ hb, d, r, hr, hk⟩
      · rcases List.mem_cons.mp hb with rfl | ha
        · obtain ⟨rfl, rfl⟩ : dp = d ∧ rest = r := by simpa using hr
          exact .inl ⟨dp, List.mem_append_right _ List.mem_cons_self, hk⟩
        · exact .inr ⟨c, List.mem_append_right _ (List.mem_cons_of_mem _ ha), d, r, hr, hk⟩
  · obtain ⟨ms, hperm, htext⟩ := h.text
    rw [hcalls] at hperm htext
    refine ⟨ms, ?_, ?_⟩
    · rw [hnew, begunMsgs_of_begun (Progress.begun_after rest)]
      rwa [begunMsgs_of_begun rfl] at hperm
    · rw [hnew, List.flatMap_append, List.flatMap_cons, Call.pending_after]
      rwa [List.flatMap_append, List.flatMap_cons] at htext

/-- The text grows by one payload, taken from the only message that has bytes left. -/
theorem take_text {before after : List Call} {chunks : List (List UInt8)} {begun : Bool} {dp : DataPacket}
    {ms : List RpcMessage} (hperm : ms.Perm (begunMsgs (before ++ ⟨m, .running rest begun⟩ :: after)))
    (htext : ms.flatMap C.pack =
      chunks.flatten ++ (before ++ ⟨m, .running rest begun⟩ :: after).flatMap Call.pending)
    (hfresh : begun = false → rest = C.pack m) (halone : ∀ c ∈ before ++ after, c.progress.mid = false) :
    ∃ ms' : List RpcMessage,
      ms'.Perm (begunMsgs (before ++ ⟨m, .blocked dp (rest.drop maxPayload)⟩ :: after)) ∧
      ms'.flatMap C.pack = (chunks ++ [rest.take maxPayload]).flatten ++
        (before ++ ⟨m, .blocked dp (rest.drop maxPayload)⟩ :: after).flatMap Call.pending := by
  have hb := flatMap_pending_eq_nil fun c hin => halone c (List.mem_append_left after hin)
  have ha := flatMap_pending_eq_nil fun c hin => halone c (List.mem_append_right before hin)
  have hrest : rest.take maxPayload ++ rest.drop maxPayload = rest := List.take_append_drop _ _
  have hnew : (chunks ++ [rest.take maxPayload]).flatten ++
      (before ++ ⟨m, .blocked dp (rest.drop maxPayload)⟩ :: after).flatMap Call.pending = chunks.flatten ++ rest := by
    rw [List.flatMap_append, List.flatMap_cons, hb, ha]
    simp [Call.pending, Progress.begun, Progress.left, hrest]
  rw [List.flatMap_append, List.flatMap_cons, hb, ha] at htext
  rw [begunMsgs_of_begun rfl, hnew]
  cases begun with
  | true =>
    rw [begunMsgs_of_begun rfl] at hperm
    refine ⟨ms, hperm, htext.trans ?_⟩
    simp [Call.pending, Progress.begun, Progress.left]
  | false =>
    -- the message begins here, whole
    rw [begunMsgs_of_not_begun rfl] at hperm
    refine ⟨ms ++ [m], ?_, ?_⟩
    · exact (List.perm_append_singleton m ms).trans ((hperm.cons m).trans List.perm_middle.symm)
    · rw [List.flatMap_append, htext, hfresh rfl]
      simp [Call.pending, Progress.begun]

/-- A call takes the next number while no other is between two packets. -/
theorem take_inv {begun : Bool} (h : Inv C s) (hc : s.calls[i]? = some ⟨m, .running rest begun⟩)
    (halone : ∀ c ∈ s.calls.eraseIdx i, c.progress.mid = false) :
    Inv C ({ s with
        ch := (s.ch.takePacket (rest.take maxPayload)).1
        chunks := s.chunks ++ [rest.take maxPayload] }.put i
      ⟨m, .blocked (s.ch.takePacket (rest.take maxPayload)).2 (rest.drop maxPayload)⟩) := by
  obtain ⟨before, after, hcalls, herase, hput⟩ := split_at hc
  generalize hdp : (s.ch.takePacket (rest.take maxPayload)).2 = dp
  have hidx : dp.idx = s.chunks.length + 1 := by
    rw [← hdp, ← h.idx]
    rfl
  have hdata : dp.data = rest.take maxPayload := hdp ▸ rfl
  have hnumbered : Numbered (s.chunks ++ [rest.take maxPayload]) dp := by
    refine ⟨by omega, ?_⟩
    rw [hidx, hdata, Nat.add_sub_cancel]
    exact List.getElem?_concat_length
  have hcase {P : Call → Prop} (hself : P ⟨m, .blocked dp (rest.drop maxPayload)⟩) (hold : ∀ c ∈ s.calls, P c) :
      ∀ c ∈ before ++ ⟨m, .blocked dp (rest.drop maxPayload)⟩ :: after, P c := by
    intro c hin
    rw [hcalls] at hold
    rcases List.mem_append.mp hin with hb | hb
    · exact hold c (List.mem_append_left _ hb)
    · rcases List.mem_cons.mp hb with rfl | ha
      · exact hself
      · exact hold c (List.mem_append_right _ (List.mem_cons_of_mem _ ha))
  have hnew := hput ⟨m, .blocked dp (rest.drop maxPayload)⟩
  refine ⟨?_, ?_, ?_, fun d hd => (h.sent d hd).append _, ?_, ?_, ?_⟩
  · show s.ch.nextTxIdx + 1 = (s.chunks ++ [rest.take maxPayload]).length
    rw [h.idx, List.length_append, List.length_singleton]
  · exact hnew ▸ hcase (by simp) h.alive
  · exact hnew ▸ hcase (P := fun c => ∀ r, c.progress = .running r false → r = C.pack c.msg) (by simp) h.fresh
  · refine hnew ▸ hcase (P := fun c => ∀ d r, c.progress = .blocked d r → Numbered _ d) ?_
      fun c hin d r hr => (h.held c hin d r hr).append _
    intro d r hr
    obtain ⟨rfl, -⟩ : dp = d ∧ rest.drop maxPayload = r := by simpa using hr
    exact hnumbered
  · intro k h1 h2
    have hlen : k ≤ s.chunks.length + 1 := by simpa [Sender.put] using h2
    rcases Nat.lt_or_ge s.chunks.length k with hlast | hold
    · refine .inr ⟨⟨m, .blocked dp (rest.drop maxPayload)⟩, ?_, dp, _, rfl, by omega⟩
      exact hnew ▸ List.mem_append_right _ List.mem_cons_self
    · rcases h.covered k h1 hold with hsent | ⟨c, hin, d, r, hr, hk⟩
      · exact .inl hsent
      · refine .inr ⟨c, ?_, d, r, hr, hk⟩
        rw [hcalls] at hin
        refine hnew ▸ ?_
        rcases List.mem_append.mp hin with hb | hb
        · exact List.mem_append_left _ hb
        · rcases List.mem_cons.mp hb with rfl | ha
          · cases hr
          · exact List.mem_append_right _ (List.mem_cons_of_mem _ ha)
  · obtain ⟨ms, hperm, htext⟩ := h.text
    rw [hcalls] at hperm htext
    have hfresh : begun = false → rest = C.pack m := by
      rintro rfl
      exact h.fresh _ (List.mem_of_getElem? hc) rest rfl
    obtain ⟨ms', hperm', htext'⟩ : ∃ ms' : List RpcMessage,
        ms'.Perm (begunMsgs (before ++ ⟨m, .blocked dp (rest.drop maxPayload)⟩ :: after)) ∧ _ :=
      take_text hperm htext hfresh (herase ▸ halone)
    rw [← hnew] at hperm' htext'
    exact ⟨ms', hperm', htext'⟩

/-- Sending the packet a call has just taken, or waiting with it. -/
theorem trySend_inv {dp : DataPacket} (h : Inv C (s.put i ⟨m, .blocked dp rest⟩)) (hi : i < s.calls.length)
    (hchan : s.ch.chan = true) : Inv C (s.trySend i m dp rest) := by
  rw [Sender.trySend]
  split_ifs
  · have hget : (s.put i ⟨m, .blocked dp rest⟩).calls[i]? = some ⟨m, .blocked dp rest⟩ :=
      List.getElem?_set_self hi
    have hpush := push_inv h hget
    simp only [Sender.put, List.set_set] at hpush
    exact hpush
  · exact h

/-! ### Runs -/

/-- Nobody comes between two packets of a message: a call takes a number only while no other call is
between two of its packets, messages fit the length field of `write`, no call gives up its wait,
and the channel stays open. -/
def Alone (C : Codec RpcMessage) (s : Sender) : Event → Prop
  | .send m => (C.pack m).length < 2 ^ 32
  | .next i => s.ch.chan = true ∧ ∀ c ∈ s.calls.eraseIdx i, c.progress.mid = false
  | .wake _ => s.ch.chan = true
  | .giveUp _ => False
  | .recv _ | .syn _ _ | .retransmit | .close => True

instance (C : Codec RpcMessage) (s : Sender) : (e : Event) → Decidable (Alone C s e)
  | .send _ | .next _ | .wake _ | .giveUp _ | .recv _ | .syn _ _ | .retransmit | .close => by
    rw [Alone]
    infer_instance

private theorem send_inv (h : Inv C s) (hm : (C.pack m).length < 2 ^ 32) : Inv C (s.send C m) := by
  have hstart : Progress.after ((C.pack m).take ((C.pack m).length % 2 ^ 32)) false = .running (C.pack m) false := by
    rw [Nat.mod_eq_of_lt hm, List.take_length]
    exact if_neg (pack_ne_nil C m)
  have hsend : s.send C m = { s with calls := s.calls ++ [⟨m, .running (C.pack m) false⟩] } := by
    simp only [Sender.send, hstart]
  rw [hsend]
  have hcase {P : Call → Prop} (hold : ∀ c ∈ s.calls, P c) (hself : P ⟨m, .running (C.pack m) false⟩) :
      ∀ c ∈ s.calls ++ [⟨m, .running (C.pack m) false⟩], P c :=
    List.forall_mem_append.mpr ⟨hold, List.forall_mem_singleton.mpr hself⟩
  refine ⟨h.idx, hcase h.alive (by simp), ?_, h.sent, ?_, ?_, ?_⟩
  · refine hcase (P := fun c => ∀ r, c.progress = .running r false → r = C.pack c.msg) h.fresh ?_
    rintro r hr
    exact (Progress.running.inj hr).1.symm
  · exact hcase (P := fun c => ∀ d r, c.progress = .blocked d r → Numbered s.chunks d) h.held (by simp)
  · intro k h1 h2
    rcases h.covered k h1 h2 with hsent | ⟨c, hin, hrest⟩
    · exact .inl hsent
    · exact .inr ⟨c, List.mem_append_left _ hin, hrest⟩
  · obtain ⟨ms, hperm, htext⟩ := h.text
    refine ⟨ms, hperm.trans (.of_eq ?_), htext.trans ?_⟩
    · rw [begunMsgs_of_not_begun rfl]
      simp [begunMsgs]
    · simp [Call.pending, Progress.begun]

/-- Whatever else the channel does, it gives out no number. -/
theorem channel_inv (h : Inv C s) {ch : Channel} (hk : Channel.KeepsTx s.ch ch) : Inv C { s with ch := ch } :=
  ⟨hk.nextTxIdx.trans h.idx, h.alive, h.fresh, h.sent, h.held, h.covered, h.text⟩

theorem step_inv {e : Event} (h : Inv C s) (ha : Alone C s e) (hs : step C s e = some s') : Inv C s' := by
  cases e with
  | send m =>
    obtain rfl := Option.some.inj hs
    exact send_inv h ha
  | next i =>
    simp only [step] at hs
    split at hs
    · rename_i m rest begun hc
      obtain rfl := Option.some.inj hs
      exact trySend_inv (take_inv h hc ha.2) (List.getElem?_eq_some_iff.mp hc).1 ha.1
    · cases hs
  | wake i =>
    simp only [step] at hs
    split at hs
    · rename_i m dp rest hc
      obtain rfl := Option.some.inj hs
      obtain ⟨hi, hget⟩ := List.getElem?_eq_some_iff.mp hc
      have hsame : s.put i ⟨m, .blocked dp rest⟩ = s := by
        simp only [Sender.put, ← hget, List.set_getElem_self]
      exact trySend_inv (hsame.symm ▸ h) hi ha
    · cases hs
  | giveUp i => exact ha.elim
  | recv p =>
    obtain rfl := Option.some.inj hs
    exact channel_inv h (Channel.onRecv_keepsTx p s.ch)
  | syn now expired =>
    obtain rfl := Option.some.inj hs
    exact channel_inv h (Channel.onSyn_keepsTx now expired s.ch)
  | retransmit =>
    obtain rfl := Option.some.inj hs
    exact channel_inv h (Channel.retransmitStep_frame s.ch).1
  | close =>
    obtain rfl := Option.some.inj hs
    exact channel_inv h (Channel.close_frame true s.ch).2.2.2.1

/-- The stream begins with whole messages, and is made of them once no call is under way. -/
theorem Inv.stream (h : Inv C s) : ∃ ms : List RpcMessage, ms.Perm (begunMsgs s.calls) ∧
    s.stream <+: ms.flatMap C.pack ∧
    ((∀ c ∈ s.calls, c.progress = .completed) → s.stream = ms.flatMap C.pack) := by
  obtain ⟨ms, hperm, htext⟩ := h.text
  refine ⟨ms, hperm, ?_, fun hdone => ?_⟩
  · have hpre := delivered_prefix h.sent s.chunks.length 1 le_rfl
    rw [htext]
    exact hpre.trans (List.prefix_append _ _)
  · have hpending : s.calls.flatMap Call.pending = [] :=
      flatMap_pending_eq_nil fun c hc => by rw [hdone c hc]; rfl
    have hall : ∀ k, 1 ≤ k → k ≤ s.chunks.length → ∃ dp ∈ s.sent, dp.idx = k := by
      intro k h1 h2
      rcases h.covered k h1 h2 with hsent | ⟨c, hin, dp, rest, hblocked, -⟩
      · exact hsent
      · cases (hdone c hin).symm.trans hblocked
    rw [htext, hpending, List.append_nil]
    exact delivered_eq h.sent hall s.chunks.length 1 le_rfl le_rfl

/-- In a run in which nobody comes between two packets of a message, the stream is at any time a
prefix of whole packed messages, those of the calls that have begun; when every call has
returned it is exactly their messages, and the peer's read loop gets each of them. -/
theorem stream_whole (C : Codec RpcMessage) (mwp : BitVec 16) (es : List Event) (s : Sender)
    (hg : Guarded (step C) (Alone C) (.init mwp) es) (hr : run (step C) (.init mwp) es = some s) :
    ∃ ms : List RpcMessage, ms.Perm (begunMsgs s.calls) ∧ s.stream <+: ms.flatMap C.pack ∧
      ((∀ c ∈ s.calls, c.progress = .completed) → ms.Perm (s.calls.map Call.msg) ∧
        s.stream = ms.flatMap C.pack ∧ readLoop C s.stream.length s.stream = ms) := by
  have hinv := invariant_of_guarded (Inv C) (fun _ _ _ h ha hs => step_inv h ha hs) (inv_init C mwp) hg hr
  obtain ⟨ms, hperm, hpre, hall⟩ := hinv.stream
  refine ⟨ms, hperm, hpre, fun hdone => ?_⟩
  have hbegun : begunMsgs s.calls = s.calls.map Call.msg := by
    rw [begunMsgs]
    rw [List.filter_eq_self.mpr fun c hc => by rw [hdone c hc]; rfl]
  have hstream := hall hdone
  refine ⟨hbegun ▸ hperm, hstream, ?_⟩
  rw [hstream]
  exact readLoop_flatMap C ms _ (length_le_flatMap C ms)

/-! ### Two runs -/

/-- The raw format: a word, a byte, a varint and a vector. -/
def rawCodec : Codec RpcMessage :=
  ((Codec.word 2).pair (Codec.byte.pair (Codec.varint.pair Codec.byte.list))).map
    (fun x => ⟨UInt16.ofBitVec x.1, x.2.1, UInt32.ofNat x.2.2.1, x.2.2.2⟩)
    (fun m => (m.id.toBitVec, m.type, m.method.toNat, m.data))
    (fun m => by simp)

def longMessage (byte : UInt8) : RpcMessage := ⟨1, 2, 3, List.replicate 1300 byte⟩

/-- The peer has taken the packets before `start`. -/
def ackUpTo (start : SeqNum) : Packet := .ack { rxWinStart := start, rxWinSize := 100 }

/-- A short message gets its number while the last packet of a long one waits for the window, and is
sent before it. -/
def wholeRun : List Event :=
  [.send (longMessage 1), .next 0, .next 0, .send ⟨2, 1, 0, [5]⟩, .next 1, .recv (ackUpTo 2), .wake 1, .wake 0]

theorem stream_whole_short : ∃ s, run (step rawCodec) (.init 100) wholeRun = some s ∧
    ∃ ms : List RpcMessage, ms.Perm [longMessage 1, ⟨2, 1, 0, [5]⟩] ∧
      readLoop rawCodec s.stream.length s.stream = ms := by
  have hrun : ∃ s, s ∈ run (step rawCodec) (.init 100) wholeRun ∧
      (∀ c ∈ s.calls, c.progress = .completed) ∧ s.calls.map Call.msg = [longMessage 1, ⟨2, 1, 0, [5]⟩] := by
    decide +kernel
  obtain ⟨s, hs, hdone, hmsgs⟩ := hrun
  obtain ⟨ms, -, -, hall⟩ := stream_whole rawCodec 100 wholeRun s (by decide +kernel) hs
  obtain ⟨hperm, -, hread⟩ := hall hdone
  exact ⟨s, hs, ms, hmsgs ▸ hperm, hread⟩

/-- Two long messages take turns. -/
def mixedRun : List Event :=
  [.send (longMessage 1), .send (longMessage 2), .next 0, .next 1, .recv (ackUpTo 2), .wake 1, .next 0, .next 1,
    .recv (ackUpTo 3), .wake 1]

/-- Both calls return, and the stream is neither order of their messages. -/
theorem stream_mixed : ∃ s, run (step rawCodec) (.init 100) mixedRun = some s ∧
    (∀ c ∈ s.calls, c.progress = .completed) ∧ s.calls.map Call.msg = [longMessage 1, longMessage 2] ∧
    (¬ ∃ ms : List RpcMessage, ms.Perm (s.calls.map Call.msg) ∧ s.stream = ms.flatMap rawCodec.pack) ∧
    ¬ (readLoop rawCodec s.stream.length s.stream).Perm (s.calls.map Call.msg) := by
  have hrun : ∃ s, s ∈ run (step rawCodec) (.init 100) mixedRun ∧
      (∀ c ∈ s.calls, c.progress = .completed) ∧ s.calls.map Call.msg = [longMessage 1, longMessage 2] ∧
      s.stream ≠ rawCodec.pack (longMessage 1) ++ rawCodec.pack (longMessage 2) ∧
      s.stream ≠ rawCodec.pack (longMessage 2) ++ rawCodec.pack (longMessage 1) ∧
      ¬ (readLoop rawCodec s.stream.length s.stream).Perm (s.calls.map Call.msg) := by decide +kernel
  obtain ⟨s, hs, hdone, hmsgs, hab, hba, hread⟩ := hrun
  refine ⟨s, hs, hdone, hmsgs, ?_, hread⟩
  rintro ⟨ms, hperm, hstream⟩
  rw [hmsgs] at hperm
  rcases List.perm_pair.mp hperm with rfl | rfl
  · exact hab (by simpa using hstream)
  · exact hba (by simpa using hstream)

end Tornet.Rpc
