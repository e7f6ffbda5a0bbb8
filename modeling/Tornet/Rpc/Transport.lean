import Tornet.Rpc.Pending
import Tornet.Rpc.Stream
import Tornet.Udt.Delivery

/-! Two `raw_rpc` ends over a `udt_channel`, on a network that loses, duplicates and reorders datagrams: which messages
the read loops unpack, and that the ends cannot tell this channel from one that keeps whole messages in order. -/
namespace Tornet.Rpc.Transport
open Library Runs Udt Pending

variable {β : Type} {C : Codec RpcMessage}

/-! ### The messages in a stream that is not complete -/

/-- What is left of a stream behind its whole messages: a part of the next one, if there is one. -/
def Cut (C : Codec RpcMessage) (rest : List UInt8) : List RpcMessage → Prop
  | [] => rest = []
  | m :: _ => rest <+: C.pack m ∧ rest ≠ C.pack m

/-- Induction on the messages: the loop takes one where the bytes reach behind it, and waits where they end in it. -/
theorem readLoop_cut (hC : C.Strict) (ms : List RpcMessage) (fuel : Nat) (bytes : List UInt8)
    (h : bytes <+: ms.flatMap C.pack) (hf : bytes.length ≤ fuel) :
    ∃ later rest, ms = readLoop C fuel bytes ++ later ∧
      bytes = (readLoop C fuel bytes).flatMap C.pack ++ rest ∧ Cut C rest later := by
  induction ms generalizing fuel bytes with
  | nil =>
    obtain rfl : bytes = [] := List.prefix_nil.mp h
    have hnone : readLoop C fuel [] = [] := by cases fuel <;> simp [readLoop]
    exact ⟨[], [], by rw [hnone]; rfl, by rw [hnone]; rfl, rfl⟩
  | cons m ms ih =>
    rw [List.flatMap_cons] at h
    by_cases hwhole : C.pack m <+: bytes
    · obtain ⟨tail, rfl⟩ := hwhole
      have htail : tail <+: ms.flatMap C.pack := (List.prefix_append_right_inj _).mp h
      have hpos := List.length_pos_iff.mpr (pack_ne_nil C m)
      rw [List.length_append] at hf
      obtain ⟨fuel, rfl⟩ : ∃ k, fuel = k + 1 := ⟨fuel - 1, by omega⟩
      have hne : C.pack m ++ tail ≠ [] := by simp [pack_ne_nil C m]
      have hloop : readLoop C (fuel + 1) (C.pack m ++ tail) = m :: readLoop C fuel tail := by
        rw [readLoop, if_neg hne, C.unpack_pack]
      obtain ⟨later, rest, hms, hbytes, hcut⟩ := ih fuel tail htail (by omega)
      refine ⟨later, rest, ?_, ?_, hcut⟩
      · rw [hloop, List.cons_append, ← hms]
      · rw [hloop, List.flatMap_cons, List.append_assoc, ← hbytes]
    · have hcut : bytes <+: C.pack m ∧ bytes ≠ C.pack m := by
        rcases List.prefix_or_prefix_of_prefix h (List.prefix_append _ _) with hp | hp
        · exact ⟨hp, fun he => hwhole (he ▸ List.prefix_rfl)⟩
        · exact absurd hp hwhole
      have hnone : readLoop C fuel bytes = [] := by
        cases fuel with
        | zero => rfl
        | succ fuel =>
          rw [readLoop, hC m bytes hcut.1 hcut.2]
          exact ite_self _
      exact ⟨m :: ms, bytes, by rw [hnone]; rfl, by rw [hnone]; rfl, hcut⟩

/-! ### What was written -/

/-- The bytes an event hands to `write` at an endpoint. -/
def written (p : Peer) : Udt.Event → List UInt8
  | .write q bytes => if q = p then bytes else []
  | _ => []

/-- Where an endpoint moves, its bytes are those before and what it adds. -/
theorem passed_put {n : Net} {p q : Peer} {s : Side} {sent : List Packet} {more : List UInt8}
    (hs : s.passed = (n.side q).passed ++ more) :
    ((n.put q s sent).side p).passed = (n.side p).passed ++ if q = p then more else [] := by
  by_cases hq : q = p
  · subst hq
    rw [Net.put_side, hs, if_pos rfl]
  · simp [Net.put, Function.update_of_ne (Ne.symm hq), hq]

theorem passed_keep {n : Net} {p q : Peer} {s : Side} {sent : List Packet} (hs : s.passed = (n.side q).passed) :
    ((n.put q s sent).side p).passed = (n.side p).passed := by
  have hput : ((n.put q s sent).side p).passed = (n.side p).passed ++ if q = p then [] else [] :=
    passed_put (hs.trans (List.append_nil _).symm)
  rwa [ite_self, List.append_nil] at hput

theorem passed_trySend (dp : DataPacket) (rest : List UInt8) (s : Side) : (s.trySend dp rest).1.passed = s.passed := by
  rw [Side.trySend]
  split_ifs <;> rfl

private theorem passed_writeNext (rest : List UInt8) (s : Side) : (s.writeNext rest).1.passed = s.passed := by
  rw [Side.writeNext, passed_trySend]

private theorem passed_readMore (len : Nat) (got : List UInt8) (s : Side) : (s.readMore len got).passed = s.passed := by
  simp only [Side.readMore]
  split_ifs <;> rfl

private theorem passed_deliver (n : Net) (p q : Peer) (pkt : Packet) (left : List Packet) :
    ((n.deliver q pkt left).side p).passed = (n.side p).passed :=
  Net.deliver_at (P := fun s => s.passed = (n.side p).passed) rfl left (fun hq => hq ▸ rfl) (fun hq _ => hq ▸ rfl)

/-- One step adds what it hands to `write`, and nothing else. -/
theorem passed_step {n n' : Net} {e : Udt.Event} (h : n.step e = some n') (p : Peer) :
    (n'.side p).passed = (n.side p).passed ++ written p e := by
  have hkeep {a b : List UInt8} (hab : a = b) : a = b ++ [] := hab.trans (List.append_nil b).symm
  cases Net.takes_of_step h with
  | write _ _ => exact passed_put rfl
  | @writeNext q rest _ _ => exact hkeep (passed_keep (passed_writeNext rest (n.side q)))
  | @writeWake q dp rest _ _ _ => exact hkeep (passed_keep (passed_trySend dp rest (n.side q)))
  | writeThrow _ _ _ => exact hkeep (passed_keep rfl)
  | writeTimeout _ _ => exact hkeep (passed_keep rfl)
  | @read q len _ _ => exact hkeep (passed_keep (passed_readMore (len % 2 ^ 32) [] (n.side q)))
  | @readWake q len got _ _ _ => exact hkeep (passed_keep (passed_readMore len got (n.side q)))
  | readThrow _ _ _ => exact hkeep (passed_keep rfl)
  | @syn q now expired _ _ =>
    exact hkeep (passed_keep (s := (n.side q).after ((n.side q).ch.onSyn now expired)) rfl)
  | @retransmit q _ _ => exact hkeep (passed_keep (s := (n.side q).after (n.side q).ch.retransmitStep) rfl)
  | @close q _ => exact hkeep (passed_keep (s := (n.side q).after ((n.side q).ch.close true)) rfl)
  | closeTask _ _ => exact hkeep (passed_keep rfl)
  | @deliver q i pkt _ _ => exact hkeep (passed_deliver n p q pkt _)
  | drop _ => exact hkeep rfl
  | dup _ => exact hkeep rfl

private theorem passed_run {n n' : Net} {es : List Udt.Event} (h : run Net.step n es = some n') (p : Peer) :
    (n'.side p).passed = (n.side p).passed ++ es.flatMap (written p) := by
  induction es generalizing n with
  | nil =>
    cases h
    exact (List.append_nil _).symm
  | cons e es ih =>
    obtain ⟨t, ht, hrun⟩ := run_cons h
    rw [ih hrun, passed_step ht p, List.flatMap_cons, List.append_assoc]

/-- What the reads return was written, in every state of the invariant. -/
theorem returned_prefix {n : Net} (h : Udt.Inv n) (p : Peer) : (n.side p).returned <+: (n.side p.other).passed := by
  obtain ⟨lost, hl⟩ := h p.other
  exact (List.prefix_append _ _).trans hl.rx_other.delivered

theorem rawCodec_strict : rawCodec.Strict :=
  ((Codec.word_strict 2).pair (Codec.byte_strict.pair (Codec.varint_strict.pair Codec.byte_strict.list))).map _

/-- In every run in range in which one endpoint writes packed messages: what the read loop of the other unpacks from the
bytes its reads have returned are the first of these messages, whole and in order, and what is left of the bytes is a
part of the next one. -/
theorem messages_framed (C : Codec RpcMessage) (hC : C.Strict) (mwp : Peer → BitVec 16)
    (hm : ∀ p, (mwp p).toNat ≤ 4096) (es : List Udt.Event) (n : Net) (hrun : run Net.step (Net.init mwp) es = some n)
    (hg : Guarded Net.step (fun n e => YoungData n e ∧ SendsInRange n e) (Net.init mwp) es) (p : Peer)
    (ms : List RpcMessage) (hms : es.flatMap (written p.other) = ms.flatMap C.pack) :
    ∃ later rest, ms = readLoop C (n.side p).returned.length (n.side p).returned ++ later ∧
      (n.side p).returned =
        (readLoop C (n.side p).returned.length (n.side p).returned).flatMap C.pack ++ rest ∧ Cut C rest later := by
  have hinv : Udt.Inv n :=
    invariant_of_guarded Udt.Inv (fun s e t h hok hs => h.step hok.1 hok.2 hs) (.init hm) hg hrun
  have hbytes := returned_prefix hinv p
  rw [passed_run hrun, hms] at hbytes
  exact readLoop_cut hC ms _ _ (by simpa [Net.init] using hbytes) le_rfl

/-- The first of two messages, and half of the second, is read. -/
def cutRun : List Udt.Event :=
  [.write .a (rawCodec.pack ⟨1, 2, 7, [1]⟩ ++ rawCodec.pack ⟨2, 2, 7, [2]⟩), .writeNext .a, .deliver .b 0, .read .b 9]

theorem messages_framed_cut : ∃ n, run Net.step (Net.init fun _ => 4096) cutRun = some n ∧
    readLoop rawCodec 9 (n.side .b).returned = [⟨1, 2, 7, [1]⟩] ∧
    ∃ later rest, [⟨1, 2, 7, [1]⟩, ⟨2, 2, 7, [2]⟩] =
        readLoop rawCodec (n.side .b).returned.length (n.side .b).returned ++ later ∧
      (n.side .b).returned = (readLoop rawCodec (n.side .b).returned.length (n.side .b).returned).flatMap
        rawCodec.pack ++ rest ∧ Cut rawCodec rest later := by
  have hread : (run Net.step (Net.init fun _ => 4096) cutRun).map
      (fun n => readLoop rawCodec 9 (n.side .b).returned) = some [⟨1, 2, 7, [1]⟩] := by decide +kernel
  obtain ⟨n, hrun, hb⟩ := Option.map_eq_some_iff.mp hread
  exact ⟨n, hrun, hb, messages_framed rawCodec rawCodec_strict _ (fun _ => by decide) cutRun n hrun (by decide +kernel) .b
    _ (by decide +kernel)⟩

/-! ### Two ends on the network -/

def peer : Bool → Peer
  | true => .a
  | false => .b

@[simp] theorem peer_not (b : Bool) : peer (!b) = (peer b).other := by cases b <;> rfl

theorem peer_inj {b c : Bool} (h : peer b = peer c) : b = c := by cases b <;> cases c <;> first | rfl | cases h

def side : Pending.Event β → Bool
  | .invoke b _ _ _ | .notice b _ _ _ | .read b | .returns b _ | .throws b => b

/-- The read loop takes a message. -/
def reads : Pending.Event β → Bool
  | .read _ => true
  | _ => false

/-- The body of the `read_loop` for one message: the end behind it, and the reply that is sent at once. -/
def dispatch (r : RawRpc β) (m : RpcMessage) (tag : Nat) : RawRpc β × Option (RpcMessage × Nat) :=
  if m.type = result then (r.onResult m tag, none)
  else if m.type = error then ((r.popPromise m.id).2, none)
  else if m.type = Pending.notice then
    if r.methods m.method then ({ r with loop := .noticing }, none) else (r, none)
  else if m.type = call then
    let reply : RpcMessage := ⟨m.id, result, m.method, []⟩
    if r.methods m.method then ({ r with loop := .calling reply tag }, none) else (r, some (reply, tag))
  else (r, none)

/-- An event at one end, where `next` is the message that the loop would read: the end behind it and what it sends. -/
def act (r : RawRpc β) (next : Option (RpcMessage × Nat)) :
    Pending.Event β → Option (RawRpc β × Option (RpcMessage × Nat))
  | .invoke _ method data unpack => some (r.invoke unpack, some (⟨r.reqId + 1, call, method, data⟩, r.calls))
  | .notice _ id method data => some (r, some (⟨id, Pending.notice, method, data⟩, 0))
  | .read _ =>
    match r.loop, next with
    | .idle, some (m, tag) => some (dispatch r m tag)
    | _, _ => none
  | .returns _ data =>
    match r.loop with
    | .calling reply tag => some ({ r with loop := .idle }, some ({ reply with data }, tag))
    | .noticing => some ({ r with loop := .idle }, none)
    | _ => none
  | .throws _ =>
    match r.loop with
    | .calling reply tag => some ({ r with loop := .ended (some (reply.id, tag)) }, none)
    | .noticing => some ({ r with loop := .ended none }, none)
    | _ => none

/-- Both ends and the network between them. `sent` is a history variable, with the messages handed to `send` and the
calls they belong to; `taken` counts the messages that the loop of an end has unpacked. -/
structure Sys (β : Type) where
  net : Net
  ends : Bool → RawRpc β
  sent : Bool → List (RpcMessage × Nat) := fun _ => []
  taken : Bool → Nat := fun _ => 0

inductive Event (β : Type) where
  | net (e : Udt.Event)
  | rpc (e : Pending.Event β)

def Event.rpc? : Event β → Option (Pending.Event β)
  | .net _ => none
  | .rpc e => some e

namespace Sys

def init (mwp : Peer → BitVec 16) (methods : Bool → UInt32 → Bool) : Sys β :=
  { net := .init mwp, ends := fun b => .init (methods b) }

/-- The next message in the bytes that the reads of an end have returned, with the call it belongs to. -/
def next (C : Codec RpcMessage) (s : Sys β) (b : Bool) : Option (RpcMessage × Nat) :=
  let bytes := (s.net.side (peer b)).returned
  (readLoop C bytes.length bytes)[s.taken b]?.map fun m => (m, ((s.sent (!b))[s.taken b]?).elim 0 Prod.snd)

/-- `raw_rpc::send`. A message is not begun while another one is between its packets. -/
def send (C : Codec RpcMessage) (s : Sys β) (b : Bool) : Option (RpcMessage × Nat) → Option (Sys β)
  | none => some s
  | some x => (s.net.step (.write (peer b) (C.pack x.1))).map fun n =>
    { s with net := n, sent := Function.update s.sent b (s.sent b ++ [x]) }

/-- An end behind an event, and the count of its loop. -/
def move (s : Sys β) (e : Pending.Event β) (r : RawRpc β) : Sys β :=
  { s with
    ends := Function.update s.ends (side e) r
    taken := if reads e then Function.update s.taken (side e) (s.taken (side e) + 1) else s.taken }

/-- One event. The writes are those of `send`; everything else the network and the endpoints do as they like. -/
def step (C : Codec RpcMessage) (s : Sys β) : Event β → Option (Sys β)
  | .net (.write ..) => none
  | .net e => (s.net.step e).map fun n => { s with net := n }
  | .rpc e => (act (s.ends (side e)) (s.next C (side e)) e).bind fun r => (s.move e r.1).send C (side e) r.2

def sends (C : Codec RpcMessage) (s : Sys β) (e : Pending.Event β) : Option RpcMessage :=
  ((act (s.ends (side e)) (s.next C (side e)) e).bind Prod.snd).map Prod.fst

/-- The network is in range, and no message is longer than a 32-bit length can say. -/
def InRange (C : Codec RpcMessage) (s : Sys β) : Event β → Prop
  | .net e => YoungData s.net e ∧ SendsInRange s.net e
  | .rpc e => ∀ m ∈ s.sends C e, (C.pack m).length < 2 ^ 32

instance (C : Codec RpcMessage) (s : Sys β) : (e : Event β) → Decidable (s.InRange C e)
  | .net e => inferInstanceAs (Decidable (YoungData s.net e ∧ SendsInRange s.net e))
  | .rpc e => inferInstanceAs (Decidable (∀ m ∈ s.sends C e, (C.pack m).length < 2 ^ 32))

/-- The same ends on a channel that keeps messages whole and in order: under way is what was sent and not unpacked. -/
def view (s : Sys β) : Link β :=
  { ends := s.ends, wire := fun b => (s.sent b).drop (s.taken (!b)) }

/-- The messages that the loop of an end has unpacked: those that the other end has sent, up to its count. -/
def seen (s : Sys β) (b : Bool) : List (RpcMessage × Nat) := (s.sent (!b)).take (s.taken b)

end Sys

/-! ### The channel that keeps the order -/

/-- An end behind an event and what it sends, on such a channel. -/
def post (s : Link β) (b : Bool) (r : RawRpc β) : Option (RpcMessage × Nat) → Link β
  | none => s.setEnd b r
  | some x => (s.setEnd b r).send b x.1 x.2

/-- The message is off the wire where the loop has read it. -/
def advance (s : Link β) (e : Pending.Event β) : Link β :=
  if reads e then s.pull (side e) (s.wire (!(side e))).tail else s

theorem dispatch_eq (s : Link β) (b : Bool) (m : RpcMessage) (tag : Nat) :
    s.dispatch b m tag = post s b (dispatch (s.ends b) m tag).1 (dispatch (s.ends b) m tag).2 := by
  rw [Link.dispatch, dispatch]
  split_ifs
  · rfl
  · rfl
  · rfl
  · exact (Link.setEnd_self s b).symm
  · rfl
  · exact congrArg (fun t => Link.send t b _ tag) (Link.setEnd_self s b).symm
  · exact (Link.setEnd_self s b).symm

/-- An event there is the same act of one end, on the message that is first on the wire. -/
theorem step_eq (s : Link β) (e : Pending.Event β) :
    Pending.step s e = (act (s.ends (side e)) (s.wire (!(side e))).head? e).map fun r =>
      post (advance s e) (side e) r.1 r.2 := by
  cases e with
  | invoke b method data unpack => rfl
  | notice b id method data =>
    exact congrArg (fun t => some (Link.send t b ⟨id, Pending.notice, method, data⟩ 0)) (Link.setEnd_self s b).symm
  | read b =>
    simp only [Pending.step, act, side]
    cases hl : (s.ends b).loop <;> cases hw : s.wire (!b) <;> try rfl
    rename_i x rest
    have hadvance : advance s (.read b) = s.pull b rest := by simp [advance, reads, side, hw]
    rw [hadvance]
    exact congrArg some (dispatch_eq (s.pull b rest) b x.1 x.2)
  | returns b data =>
    simp only [Pending.step, act, side]
    cases hl : (s.ends b).loop <;> rfl
  | throws b =>
    simp only [Pending.step, act, side]
    cases hl : (s.ends b).loop <;> rfl

/-! ### The refinement -/

/-- What was written is what was sent, packed; the loops have unpacked no more than that. -/
structure Inv (C : Codec RpcMessage) (s : Sys β) : Prop where
  net : Udt.Inv s.net
  passed : ∀ b, (s.net.side (peer b)).passed = (s.sent b).flatMap fun x => C.pack x.1
  taken : ∀ b, s.taken b ≤ (s.sent (!b)).length

variable {s t : Sys β} {e : Pending.Event β}

theorem Inv.init {mwp : Peer → BitVec 16} (hm : ∀ p, (mwp p).toNat ≤ 4096) (methods : Bool → UInt32 → Bool) :
    Inv C (.init mwp methods : Sys β) :=
  ⟨.init hm, fun _ => rfl, fun _ => Nat.le_refl 0⟩

/-- The message that a loop unpacks next is the next one that the other end has sent. -/
theorem Inv.next (h : Inv C s) (hC : C.Strict) {b : Bool} {x : RpcMessage × Nat} (hx : s.next C b = some x) :
    (s.sent (!b))[s.taken b]? = some x := by
  have hbytes := returned_prefix h.net (peer b)
  rw [← peer_not, h.passed (!b)] at hbytes
  have hpack : ((s.sent (!b)).flatMap fun x => C.pack x.1) = ((s.sent (!b)).map Prod.fst).flatMap C.pack := by
    rw [List.flatMap_map]
  rw [hpack] at hbytes
  obtain ⟨later, rest, hms, -, -⟩ := readLoop_cut hC _ _ _ hbytes le_rfl
  obtain ⟨m, hloop, hmx⟩ := Option.map_eq_some_iff.mp hx
  have hsent : ((s.sent (!b)).map Prod.fst)[s.taken b]? = some m := by
    rw [hms]
    exact (List.getElem?_append_left (List.getElem?_eq_some_iff.mp hloop).1).trans hloop
  rw [List.getElem?_map] at hsent
  obtain ⟨y, hy, rfl⟩ := Option.map_eq_some_iff.mp hsent
  rw [hy, ← hmx, hy]
  rfl

/-- A step of the network moves neither end, and hands nothing to `write`. -/
theorem net_step {u : Udt.Event} (hs : s.step C (.net u) = some t) :
    ∃ n, s.net.step u = some n ∧ t = { s with net := n } ∧ ∀ p, written p u = [] := by
  cases u with
  | write => cases hs
  | _ =>
    obtain ⟨n, hn, rfl⟩ := Option.map_eq_some_iff.mp hs
    exact ⟨n, hn, rfl, fun _ => rfl⟩

theorem Inv.net_step (h : Inv C s) {u : Udt.Event} (hu : s.InRange C (.net u)) (hs : s.step C (.net u) = some t) :
    Inv C t ∧ t.view = s.view := by
  obtain ⟨n, hn, rfl, hquiet⟩ := Transport.net_step hs
  refine ⟨⟨h.net.step hu.1 hu.2 hn, ?_, h.taken⟩, rfl⟩
  intro b
  rw [passed_step hn, hquiet, List.append_nil]
  exact h.passed b

/-- Only a loop that reads looks at the next message. -/
theorem act_mono {r : RawRpc β} {next other : Option (RpcMessage × Nat)} {out : RawRpc β × Option (RpcMessage × Nat)}
    (hnext : ∀ x, next = some x → other = some x) (h : act r next e = some out) : act r other e = some out := by
  cases e with
  | read b =>
    cases hl : r.loop with
    | idle =>
      cases next with
      | none => simp [act, hl] at h
      | some x =>
        rw [hnext x rfl]
        exact h
    | calling reply tag => simp [act, hl] at h
    | noticing => simp [act, hl] at h
    | ended left => simp [act, hl] at h
  | invoke | notice | returns | throws => exact h

private theorem next_of_reads {r : RawRpc β} {next : Option (RpcMessage × Nat)} {out : RawRpc β × Option (RpcMessage × Nat)}
    (h : act r next e = some out) (hr : reads e = true) : ∃ x, next = some x := by
  cases e with
  | read b =>
    cases next with
    | none => cases hl : r.loop <;> simp [act, hl] at h
    | some x => exact ⟨x, rfl⟩
  | invoke | notice | returns | throws => cases hr

private theorem view_move (s : Sys β) (e : Pending.Event β) (r : RawRpc β) :
    (s.move e r).view = (advance s.view e).setEnd (side e) r := by
  rw [advance]
  cases hr : reads e with
  | false => simp [Sys.view, Sys.move, Link.setEnd, hr]
  | true =>
    simp only [Sys.view, Sys.move, Link.setEnd, Link.pull, hr, if_true, Link.mk.injEq, true_and]
    funext c
    by_cases hc : c = !(side e)
    · subst hc
      simp [List.tail_drop]
    · have hside : (!c) ≠ side e := fun heq => hc (by rw [← heq, Bool.not_not])
      rw [Function.update_of_ne hside, Function.update_of_ne hc]

/-- The read loop has unpacked a message that was there. -/
theorem Inv.move (h : Inv C s) (hC : C.Strict) {out : RawRpc β × Option (RpcMessage × Nat)}
    (hact : act (s.ends (side e)) (s.next C (side e)) e = some out) : Inv C (s.move e out.1) := by
  refine ⟨h.net, h.passed, ?_⟩
  intro b
  cases hr : reads e with
  | false => simpa [Sys.move, hr] using h.taken b
  | true =>
    by_cases hb : b = side e
    · subst hb
      obtain ⟨x, hx⟩ := next_of_reads hact hr
      have hlt := (List.getElem?_eq_some_iff.mp (h.next hC hx)).1
      simpa [Sys.move, hr] using hlt
    · simpa [Sys.move, hr, Function.update_of_ne hb] using h.taken b

/-- A message that is sent is behind those sent before, in the bytes and on the wire. -/
theorem Inv.send (h : Inv C s) {b : Bool} {x : RpcMessage × Nat} (hx : (C.pack x.1).length < 2 ^ 32)
    (hs : s.send C b (some x) = some t) : Inv C t ∧ t.view = s.view.send b x.1 x.2 := by
  obtain ⟨n, hn, rfl⟩ := Option.map_eq_some_iff.mp hs
  have hyoung : YoungData s.net (.write (peer b) (C.pack x.1)) := trivial
  refine ⟨⟨h.net.step hyoung hx hn, ?_, ?_⟩, ?_⟩
  · intro c
    rw [passed_step hn]
    by_cases hc : c = b
    · subst hc
      simp [written, h.passed c]
    · have hpeer : peer b ≠ peer c := fun heq => hc (peer_inj heq).symm
      simp [written, h.passed c, Function.update_of_ne hc, hpeer]
  · intro c
    by_cases hc : (!c) = b
    · subst hc
      simpa using Nat.le_succ_of_le (h.taken c)
    · simpa [Function.update_of_ne hc] using h.taken c
  · simp only [Sys.view, Link.send, Link.mk.injEq, true_and]
    funext c
    by_cases hc : c = b
    · subst hc
      have hle := h.taken (!c)
      rw [Bool.not_not] at hle
      rw [Function.update_self, Function.update_self, List.drop_append_of_le_length hle]
    · rw [Function.update_of_ne hc, Function.update_of_ne hc]

/-- What an end does over the network is what it does over the channel that keeps the order. -/
theorem Inv.rpc_step (h : Inv C s) (hC : C.Strict) (hg : s.InRange C (.rpc e)) (hs : s.step C (.rpc e) = some t) :
    Inv C t ∧ Pending.step s.view e = some t.view := by
  obtain ⟨⟨r, out⟩, hact, hsend⟩ := Option.bind_eq_some_iff.mp hs
  have hview : act (s.view.ends (side e)) (s.view.wire (!(side e))).head? e = some (r, out) := by
    refine act_mono (fun x hx => ?_) hact
    have hwire : s.view.wire (!(side e)) = (s.sent (!(side e))).drop (s.taken (side e)) := by
      simp [Sys.view]
    rw [hwire, List.head?_drop]
    exact h.next hC hx
  have hmove := h.move hC hact
  rw [step_eq, hview, Option.map_some]
  cases out with
  | none =>
    obtain rfl : s.move e r = t := Option.some.inj hsend
    exact ⟨hmove, congrArg some (view_move s e r).symm⟩
  | some x =>
    have hx : (C.pack x.1).length < 2 ^ 32 := hg x.1 (by simp [Sys.sends, hact])
    obtain ⟨hinv, hv⟩ := hmove.send hx hsend
    refine ⟨hinv, ?_⟩
    rw [hv, view_move]
    rfl

/-- One step of the ends over the network is no step, or the same step, of the ends over the channel. -/
theorem Inv.step (h : Inv C s) (hC : C.Strict) {u : Event β} (hg : s.InRange C u) (hs : s.step C u = some t) :
    Inv C t ∧ run Pending.step s.view u.rpc?.toList = some t.view := by
  cases u with
  | net u =>
    obtain ⟨hinv, hview⟩ := h.net_step hg hs
    exact ⟨hinv, congrArg some hview.symm⟩
  | rpc e =>
    obtain ⟨hinv, hstep⟩ := h.rpc_step hC hg hs
    refine ⟨hinv, ?_⟩
    simp [Event.rpc?, run, hstep]

/-- In every run in range over the network: what happened at the two ends is, in the same order, a run over the channel
that keeps messages whole and in order, and it leaves the same ends with the same messages under way. -/
theorem calls_refine (C : Codec RpcMessage) (hC : C.Strict) (mwp : Peer → BitVec 16) (hm : ∀ p, (mwp p).toNat ≤ 4096)
    (methods : Bool → UInt32 → Bool) (es : List (Event β)) (s : Sys β)
    (hrun : run (Sys.step C) (.init mwp methods) es = some s)
    (hg : Guarded (Sys.step C) (Sys.InRange C) (.init mwp methods) es) :
    run Pending.step (Link.init methods) (es.filterMap Event.rpc?) = some s.view :=
  (run_simulated (Inv C) Sys.view Event.rpc? (fun _ _ _ h hok hs => h.step hC hok hs) (.init hm methods) hg hrun).2

/-- A call and its reply, each in one datagram; that of the call is doubled, and one of the two is lost. -/
def lossyRun : List (Event Nat) :=
  [.rpc (.invoke true 7 [1] fun d => some d.length), .net (.writeNext .a), .net (.dup .b 0), .net (.drop .b 0),
    .net (.deliver .b 0), .net (.read .b 6), .rpc (.read false), .rpc (.returns false [5, 1]), .net (.writeNext .b),
    .net (.deliver .a 0), .net (.read .a 7), .rpc (.read true)]

theorem calls_refine_lossy : ∃ s, run (Sys.step rawCodec) (.init (fun _ => 4096) fun _ _ => true) lossyRun = some s ∧
    (s.ends true).results = [(0, [5, 1])] ∧
    run Pending.step (Link.init fun _ _ => true) (lossyRun.filterMap Event.rpc?) = some s.view := by
  have hresults : (run (Sys.step rawCodec) (.init (fun _ => 4096) fun _ _ => true) lossyRun).map
      (fun s => (s.ends true).results) = some [(0, [5, 1])] := by decide +kernel
  obtain ⟨s, hrun, hr⟩ := Option.map_eq_some_iff.mp hresults
  exact ⟨s, hrun, hr, calls_refine rawCodec rawCodec_strict _ (fun _ => by decide) _ lossyRun s hrun (by decide +kernel)⟩

/-! ### What a call is answered with -/

/-- The data of a result message, for the call it belongs to. -/
def answer (x : RpcMessage × Nat) : Option (Nat × List UInt8) :=
  if x.1.type = result then some (x.2, x.1.data) else none

def callsIn (l : List (RpcMessage × Nat)) : List (RpcMessage × Nat) := l.filter fun x => x.1.type = call

/-- The method and the argument of an `invoke` at an end. -/
def invoked (b : Bool) : Event β → Option (UInt32 × List UInt8)
  | .rpc (.invoke b' method data _) => if b' = b then some (method, data) else none
  | _ => none

/-- The methods return what they make of the message that the loop has read last. -/
def Sys.Serves (serves : Bool → UInt32 → List UInt8 → List UInt8 → Prop) (s : Sys β) : Event β → Prop
  | .rpc (.returns b data) => ∀ x ∈ (s.seen b).getLast?, serves b x.1.method x.1.data data
  | _ => True

instance (serves : Bool → UInt32 → List UInt8 → List UInt8 → Prop) [∀ b m a o, Decidable (serves b m a o)] (s : Sys β) :
    (e : Event β) → Decidable (s.Serves serves e)
  | .rpc (.returns b data) =>
    inferInstanceAs (Decidable (∀ x ∈ (s.seen b).getLast?, serves b x.1.method x.1.data data))
  | .net _ | .rpc (.invoke ..) | .rpc (.notice ..) | .rpc (.read _) | .rpc (.throws _) => inferInstanceAs (Decidable True)

/-- What a call is answered with: what the method returns, and nothing where there is no such method. -/
def Replies (serves : UInt32 → List UInt8 → List UInt8 → Prop) (methods : UInt32 → Bool) (q : RpcMessage)
    (data : List UInt8) : Prop :=
  if methods q.method then serves q.method q.data data else data = []

/-- A reply answers a call that was read, and has its id and its method. -/
def Asked (serves : UInt32 → List UInt8 → List UInt8 → Prop) (methods : UInt32 → Bool) (seen : List (RpcMessage × Nat))
    (x : RpcMessage × Nat) : Prop :=
  ∃ q, (q, x.2) ∈ seen ∧ q.type = call ∧ q.id = x.1.id ∧ q.method = x.1.method ∧ Replies serves methods q x.1.data

variable {serves : UInt32 → List UInt8 → List UInt8 → Prop} {methods : UInt32 → Bool}

theorem Asked.append {seen : List (RpcMessage × Nat)} {x : RpcMessage × Nat} (h : Asked serves methods seen x)
    (more : List (RpcMessage × Nat)) : Asked serves methods (seen ++ more) x := by
  obtain ⟨q, hq, hask⟩ := h
  exact ⟨q, List.mem_append_left more hq, hask⟩

/-- One end, by the messages that its loop has unpacked and those that it has sent. -/
structure Answering (serves : UInt32 → List UInt8 → List UInt8 → Prop) (methods : UInt32 → Bool) (r : RawRpc β)
    (seen sent : List (RpcMessage × Nat)) : Prop where
  known : r.methods = methods
  results : r.results = seen.filterMap answer
  replies : ∀ x ∈ sent, x.1.type = result → Asked serves methods seen x
  owed : ∀ reply tag, r.loop = .calling reply tag → reply.type = result ∧
    ∃ q, seen.getLast? = some (q, tag) ∧ q.type = call ∧ q.id = reply.id ∧ q.method = reply.method ∧ methods q.method = true
  order : (callsIn sent).map Prod.snd = List.range r.calls
  ids : ∀ x ∈ callsIn sent, (r.mem x.2).reqId = x.1.id

variable {r : RawRpc β} {seen sent : List (RpcMessage × Nat)}

theorem callsIn_append (sent more : List (RpcMessage × Nat)) : callsIn (sent ++ more) = callsIn sent ++ callsIn more :=
  List.filter_append sent more

private theorem callsIn_other {x : RpcMessage × Nat} (h : x.1.type ≠ call) : callsIn [x] = [] := by simp [callsIn, h]

/-- A loop that was at the next message, and owes nothing, has unpacked this one. -/
theorem Answering.after (h : Answering serves methods r seen sent) {r' : RawRpc β} {x : RpcMessage × Nat}
    (hmethods : r'.methods = r.methods) (hresults : r'.results = r.results ++ [x].filterMap answer)
    (hloop : ∀ reply tag, r'.loop ≠ .calling reply tag) (hcalls : r'.calls = r.calls)
    (hids : ∀ p, (r'.mem p).reqId = (r.mem p).reqId) : Answering serves methods r' (seen ++ [x]) sent := by
  refine ⟨hmethods.trans h.known, ?_, ?_, ?_, ?_, ?_⟩
  · rw [hresults, h.results, List.filterMap_append]
  · intro y hy hr
    exact (h.replies y hy hr).append [x]
  · intro reply tag hl
    exact absurd hl (hloop reply tag)
  · rw [hcalls]
    exact h.order
  · intro y hy
    rw [hids]
    exact h.ids y hy

/-- A message that is no call and answers one that was read. -/
theorem Answering.send (h : Answering serves methods r seen sent) {x : RpcMessage × Nat} (hcall : x.1.type ≠ call)
    (hres : x.1.type = result → Asked serves methods seen x) : Answering serves methods r seen (sent ++ [x]) := by
  have hsame : callsIn (sent ++ [x]) = callsIn sent := by rw [callsIn_append, callsIn_other hcall, List.append_nil]
  refine ⟨h.known, h.results, ?_, h.owed, ?_, ?_⟩
  · intro y hy hr
    rcases List.mem_append.mp hy with hold | hone
    · exact h.replies y hold hr
    · obtain rfl := List.mem_singleton.mp hone
      exact hres hr
  · rw [hsame]
    exact h.order
  · rw [hsame]
    exact h.ids

private theorem methods_enqueuePromise (r : RawRpc β) (p : Nat) : (r.enqueuePromise p).methods = r.methods := by
  rw [RawRpc.enqueuePromise]
  split
  · rfl
  · rfl

theorem Answering.invoke (h : Answering serves methods r seen sent) (method : UInt32) (data : List UInt8)
    (unpack : List UInt8 → Option β) :
    Answering serves methods (r.invoke unpack) seen (sent ++ [(⟨r.reqId + 1, call, method, data⟩, r.calls)]) := by
  have hre : RawRpc.Relinked (r.newPromise unpack) (r.invoke unpack) := RawRpc.relinked_enqueuePromise _ _
  have hcalls : (r.invoke unpack).calls = r.calls + 1 := hre.calls
  have hnew : callsIn [(⟨r.reqId + 1, call, method, data⟩, r.calls)] = [(⟨r.reqId + 1, call, method, data⟩, r.calls)] := rfl
  refine ⟨(methods_enqueuePromise _ _).trans h.known, hre.results.trans h.results, ?_, ?_, ?_, ?_⟩
  · intro x hx hr
    rcases List.mem_append.mp hx with hold | hone
    · exact h.replies x hold hr
    · obtain rfl := List.mem_singleton.mp hone
      exact absurd hr (show call ≠ result by decide)
  · intro reply tag hl
    exact h.owed reply tag (hre.loop ▸ hl)
  · rw [callsIn_append, List.map_append, h.order, hnew, hcalls, List.range_succ]
    rfl
  · intro x hx
    rw [callsIn_append, hnew] at hx
    rw [hre.reqId]
    rcases List.mem_append.mp hx with hold | hone
    · have hlt : x.2 ∈ List.range r.calls := h.order ▸ List.mem_map_of_mem hold
      rw [← h.ids x hold]
      simp [RawRpc.newPromise, Function.update_of_ne (Nat.ne_of_lt (List.mem_range.mp hlt))]
    · obtain rfl := List.mem_singleton.mp hone
      simp [RawRpc.newPromise]

private theorem relinked_popPromise (r : RawRpc β) (id : UInt16) : RawRpc.Relinked r (r.popPromise id).2 := by
  rw [RawRpc.popPromise]
  split
  · exact RawRpc.relinked_pointers r r.pendingHead r.pendingTail
  · exact RawRpc.relinked_unlinkAt r _ _

private theorem methods_popPromise (r : RawRpc β) (id : UInt16) : (r.popPromise id).2.methods = r.methods := by
  rw [RawRpc.popPromise]
  split
  · rfl
  · rename_i prev cur _
    cases prev with
    | none =>
      simp only [RawRpc.unlinkAt, RawRpc.setNext]
      split_ifs <;> rfl
    | some y =>
      simp only [RawRpc.unlinkAt, RawRpc.setNext]
      split_ifs <;> rfl

/-- A result that is read: it is noted, and the calls stay those that were made. -/
theorem onResult_frame (r : RawRpc β) (m : RpcMessage) (tag : Nat) :
    (r.onResult m tag).results = r.results ++ [(tag, m.data)] ∧ (r.onResult m tag).calls = r.calls ∧
      (r.onResult m tag).methods = r.methods ∧ ∀ p, ((r.onResult m tag).mem p).reqId = (r.mem p).reqId := by
  have hre := relinked_popPromise { r with results := r.results ++ [(tag, m.data)] } m.id
  have hmethods := methods_popPromise { r with results := r.results ++ [(tag, m.data)] } m.id
  rw [RawRpc.onResult]
  split
  · rename_i u heq
    rw [heq] at hre hmethods
    exact ⟨hre.results, hre.calls, hmethods, hre.reqId⟩
  · rename_i q u heq
    rw [heq] at hre hmethods
    cases hv : u.handleResult q m.data with
    | none => exact ⟨hre.results, hre.calls, hmethods, hre.reqId⟩
    | some w =>
      obtain ⟨v, -, rfl⟩ := Option.map_eq_some_iff.mp hv
      refine ⟨hre.results, hre.calls, hmethods, fun p => ?_⟩
      rw [← hre.reqId p]
      by_cases hp : p = q
      · subst hp
        simp
      · simp [Function.update_of_ne hp]

/-- The `switch` of the loop, on a message that was unpacked: a reply answers that message. -/
theorem Answering.dispatch (h : Answering serves methods r seen sent) (hidle : r.loop = .idle) (m : RpcMessage)
    (tag : Nat) : Answering serves methods (dispatch r m tag).1 (seen ++ [(m, tag)]) (sent ++ (dispatch r m tag).2.toList) := by
  have hquiet (hm : m.type ≠ result) : r.results = r.results ++ [(m, tag)].filterMap answer := by
    simp [answer, hm]
  have hfree : ∀ reply t, r.loop ≠ .calling reply t := by
    intro reply t hl
    rw [hidle] at hl
    cases hl
  rw [Transport.dispatch]
  by_cases hres : m.type = result
  · obtain ⟨hr, hc, hmethods, hids⟩ := onResult_frame r m tag
    rw [if_pos hres, Option.toList_none, List.append_nil]
    refine h.after hmethods (by simp [hr, answer, hres]) ?_ hc hids
    intro reply t hl
    rcases r.loop_onResult m tag with heq | heq
    · exact hfree reply t (heq ▸ hl)
    · rw [heq] at hl
      cases hl
  rw [if_neg hres]
  by_cases herr : m.type = error
  · have hre := relinked_popPromise r m.id
    rw [if_pos herr, Option.toList_none, List.append_nil]
    exact h.after (methods_popPromise r m.id) (hre.results.trans (hquiet hres))
      (fun reply t hl => hfree reply t (hre.loop ▸ hl)) hre.calls hre.reqId
  rw [if_neg herr]
  by_cases hnot : m.type = Pending.notice
  · rw [if_pos hnot]
    split_ifs
    · rw [Option.toList_none, List.append_nil]
      exact h.after rfl (hquiet hres) (fun reply t hl => by cases hl) rfl fun _ => rfl
    · rw [Option.toList_none, List.append_nil]
      exact h.after rfl (hquiet hres) hfree rfl fun _ => rfl
  rw [if_neg hnot]
  by_cases hcall : m.type = call
  · rw [if_pos hcall]
    have hread : Answering serves methods r (seen ++ [(m, tag)]) sent := h.after rfl (hquiet hres) hfree rfl fun _ => rfl
    split_ifs with hknown
    · rw [Option.toList_none, List.append_nil]
      refine ⟨hread.known, hread.results, hread.replies, ?_, hread.order, hread.ids⟩
      intro reply t hl
      cases hl
      exact ⟨rfl, m, List.getLast?_concat, hcall, rfl, rfl, h.known ▸ hknown⟩
    · apply hread.send (show result ≠ call by decide)
      intro _
      refine ⟨m, List.mem_append_right seen (List.mem_singleton_self _), hcall, rfl, rfl, ?_⟩
      rw [Replies, if_neg (h.known ▸ hknown)]
  · rw [if_neg hcall, Option.toList_none, List.append_nil]
    exact h.after rfl (hquiet hres) hfree rfl fun _ => rfl

def unpacked (next : Option (RpcMessage × Nat)) (e : Pending.Event β) : List (RpcMessage × Nat) :=
  if reads e then next.toList else []

theorem unpacked_eq_nil (next : Option (RpcMessage × Nat)) (hr : reads e = false) : unpacked next e = [] := by
  rw [unpacked, if_neg (by simp [hr])]

/-- A loop at a place where it owes no reply. -/
theorem Answering.setLoop (h : Answering serves methods r seen sent) {loop : Loop}
    (hloop : ∀ reply tag, loop ≠ .calling reply tag) : Answering serves methods { r with loop := loop } seen sent :=
  ⟨h.known, h.results, h.replies, fun reply tag hl => absurd hl (hloop reply tag), h.order, h.ids⟩

/-- An event at one end; where a method returns, it returns what it makes of the last message. -/
theorem Answering.act (h : Answering serves methods r seen sent) {next : Option (RpcMessage × Nat)}
    {out : RawRpc β × Option (RpcMessage × Nat)} (hact : act r next e = some out)
    (hserves : ∀ b data, e = .returns b data → ∀ x ∈ seen.getLast?, serves x.1.method x.1.data data) :
    Answering serves methods out.1 (seen ++ unpacked next e) (sent ++ out.2.toList) := by
  cases e with
  | invoke b method data unpack =>
    cases hact
    rw [unpacked_eq_nil next rfl, List.append_nil]
    exact h.invoke method data unpack
  | notice b id method data =>
    cases hact
    rw [unpacked_eq_nil next rfl, List.append_nil]
    exact h.send (show Pending.notice ≠ call by decide) fun hr => absurd hr (show Pending.notice ≠ result by decide)
  | read b =>
    simp only [Transport.act] at hact
    split at hact
    · rename_i hl
      cases hact
      exact h.dispatch hl _ _
    · cases hact
  | returns b data =>
    rw [unpacked_eq_nil next rfl, List.append_nil]
    simp only [Transport.act] at hact
    split at hact
    · rename_i reply tag hl
      cases hact
      obtain ⟨htype, q, hlast, hcall, hid, hmethod, hknown⟩ := h.owed reply tag hl
      have hidle := h.setLoop (show ∀ reply tag, Loop.idle ≠ .calling reply tag by simp)
      have hdata : Replies serves methods q data := by
        rw [Replies, if_pos hknown]
        exact hserves b data rfl _ hlast
      refine hidle.send (by rw [htype]; decide) fun _ => ?_
      exact ⟨q, List.mem_of_getLast? hlast, hcall, hid, hmethod, hdata⟩
    · cases hact
      rw [Option.toList_none, List.append_nil]
      exact h.setLoop (by simp)
    · cases hact
  | throws b =>
    rw [unpacked_eq_nil next rfl, List.append_nil]
    simp only [Transport.act] at hact
    split at hact
    · cases hact
      rw [Option.toList_none, List.append_nil]
      exact h.setLoop (by simp)
    · cases hact
      rw [Option.toList_none, List.append_nil]
      exact h.setLoop (by simp)
    · cases hact

private theorem dispatch_calls (r : RawRpc β) (m : RpcMessage) (tag : Nat) : callsIn (dispatch r m tag).2.toList = [] := by
  rw [Transport.dispatch]
  split_ifs <;> rfl

/-- An end calls what its `invoke` says and nothing else. -/
theorem Answering.act_calls (h : Answering serves methods r seen sent) {next : Option (RpcMessage × Nat)}
    {out : RawRpc β × Option (RpcMessage × Nat)} (hact : Transport.act r next e = some out) :
    (callsIn out.2.toList).map (fun x => (x.1.method, x.1.data)) = (invoked (side e) (.rpc e)).toList := by
  cases e with
  | invoke b method data unpack =>
    cases hact
    simp [invoked, side, callsIn]
  | notice b id method data =>
    cases hact
    rfl
  | read b =>
    simp only [Transport.act] at hact
    split at hact
    · cases hact
      rw [dispatch_calls]
      rfl
    · cases hact
  | returns b data =>
    simp only [Transport.act] at hact
    split at hact
    · rename_i reply tag hl
      cases hact
      have htype : reply.type ≠ call := by
        rw [(h.owed reply tag hl).1]
        decide
      rw [Option.toList_some, callsIn_other htype]
      rfl
    · cases hact
      rfl
    · cases hact
  | throws b =>
    simp only [Transport.act] at hact
    split at hact
    · cases hact
      rfl
    · cases hact
      rfl
    · cases hact

theorem send_eq {b : Bool} {out : Option (RpcMessage × Nat)} (hs : s.send C b out = some t) :
    t.ends = s.ends ∧ t.taken = s.taken ∧ t.sent = Function.update s.sent b (s.sent b ++ out.toList) := by
  cases out with
  | none =>
    obtain rfl : s = t := Option.some.inj hs
    simp
  | some x =>
    obtain ⟨n, -, rfl⟩ := Option.map_eq_some_iff.mp hs
    exact ⟨rfl, rfl, rfl⟩

section
variable {serves : Bool → UInt32 → List UInt8 → List UInt8 → Prop} {methods : Bool → UInt32 → Bool}

def BothAnswering (serves : Bool → UInt32 → List UInt8 → List UInt8 → Prop) (methods : Bool → UInt32 → Bool)
    (s : Sys β) : Prop :=
  ∀ b, Answering (serves b) (methods b) (s.ends b) (s.seen b) (s.sent b)

theorem BothAnswering.init (mwp : Peer → BitVec 16) : BothAnswering serves methods (.init mwp methods : Sys β) := by
  intro b
  refine ⟨rfl, rfl, ?_, ?_, rfl, ?_⟩
  · intro x hx
    cases hx
  · intro reply tag hl
    cases hl
  · intro x hx
    cases hx

/-- One step keeps it at both ends: the end that moves unpacks what the other has sent, and what it sends is behind
everything the other has unpacked. -/
theorem BothAnswering.step (h : BothAnswering serves methods s) (hinv : Inv C s) (hC : C.Strict) {u : Event β}
    (hserves : s.Serves serves u) (hs : s.step C u = some t) : BothAnswering serves methods t := by
  cases u with
  | net u =>
    obtain ⟨n, -, rfl, -⟩ := Transport.net_step hs
    exact h
  | rpc e =>
    obtain ⟨⟨r, out⟩, hact, hsend⟩ := Option.bind_eq_some_iff.mp hs
    obtain ⟨hends, htaken, hsent⟩ := send_eq hsend
    refine Link.forall_side (side e) ?_ ?_
    · have hseen : t.seen (side e) = s.seen (side e) ++ unpacked (s.next C (side e)) e := by
        rw [Sys.seen, Sys.seen, htaken, hsent, unpacked, Function.update_of_ne (Bool.not_ne_self _)]
        cases hr : reads e with
        | false => simp [Sys.move, hr]
        | true =>
          obtain ⟨x, hx⟩ := next_of_reads hact hr
          simp [Sys.move, hr, List.take_add_one, hinv.next hC hx, hx]
      have hself := (h (side e)).act hact fun b data he => by subst he; exact hserves
      rw [← hseen] at hself
      simpa [hends, hsent, Sys.move] using hself
    · have hseen : t.seen (!(side e)) = s.seen (!(side e)) := by
        have hle := hinv.taken (!(side e))
        rw [Bool.not_not] at hle
        have hcount : (s.move e r).taken (!(side e)) = s.taken (!(side e)) := by
          cases hr : reads e <;> simp [Sys.move, hr]
        rw [Sys.seen, Sys.seen, htaken, hsent, hcount, Bool.not_not, Function.update_self]
        exact List.take_append_of_le_length hle
      simpa [hends, hsent, hseen, Sys.move] using h (!(side e))

/-- The calls that an end has sent, by their methods and arguments. -/
def Sys.called (s : Sys β) (b : Bool) : List (UInt32 × List UInt8) :=
  (callsIn (s.sent b)).map fun x => (x.1.method, x.1.data)

theorem BothAnswering.step_called (h : BothAnswering serves methods s) {u : Event β} (hs : s.step C u = some t)
    (b : Bool) : t.called b = s.called b ++ (invoked b u).toList := by
  cases u with
  | net u =>
    obtain ⟨n, -, rfl, -⟩ := Transport.net_step hs
    exact (List.append_nil _).symm
  | rpc e =>
    obtain ⟨⟨r, out⟩, hact, hsend⟩ := Option.bind_eq_some_iff.mp hs
    obtain ⟨-, -, hsent⟩ := send_eq hsend
    rw [Sys.called, Sys.called, hsent]
    by_cases hb : b = side e
    · subst hb
      rw [Function.update_self, callsIn_append, List.map_append, (h (side e)).act_calls hact]
      rfl
    · rw [Function.update_of_ne hb]
      have hnone : invoked b (.rpc e) = none := by
        cases e with
        | invoke b' method data unpack => exact if_neg fun he => hb he.symm
        | notice | read | returns | throws => rfl
      rw [hnone, Option.toList_none, List.append_nil]
      rfl

/-- Along a run both ends keep to it, and their calls are those of the `invoke`s in their order. -/
theorem BothAnswering.run (hC : C.Strict) {es : List (Event β)} (h : BothAnswering serves methods s) (hinv : Inv C s)
    (hg : Guarded (Sys.step C) (fun s e => s.InRange C e ∧ s.Serves serves e) s es)
    (hrun : Runs.run (Sys.step C) s es = some t) :
    BothAnswering serves methods t ∧ ∀ b, t.called b = s.called b ++ es.filterMap (invoked b) := by
  induction es generalizing s with
  | nil =>
    obtain rfl := Option.some.inj hrun
    exact ⟨h, fun b => (List.append_nil _).symm⟩
  | cons u es ih =>
    obtain ⟨s₁, hs₁, hrest⟩ := run_cons hrun
    obtain ⟨hend, hcalled⟩ := ih (h.step hinv hC hg.1.2 hs₁) (hinv.step hC hg.1.1 hs₁).1 (hg.2 s₁ hs₁) hrest
    refine ⟨hend, fun b => ?_⟩
    rw [hcalled b, h.step_called hs₁ b, List.append_assoc]
    cases hu : invoked b u with
    | none => rw [List.filterMap_cons_none hu, Option.toList_none, List.nil_append]
    | some call => rw [List.filterMap_cons_some hu, Option.toList_some, List.singleton_append]

end

/-- The message of a call has the method and the argument of the call. -/
theorem Answering.called (h : Answering serves methods r seen sent) {q : RpcMessage} {c : Nat} (hq : (q, c) ∈ sent)
    (hcall : q.type = call) : ((callsIn sent).map fun x => (x.1.method, x.1.data))[c]? = some (q.method, q.data) := by
  have hmem : (q, c) ∈ callsIn sent := List.mem_filter.mpr ⟨hq, decide_eq_true hcall⟩
  obtain ⟨i, hi, hget⟩ := List.getElem_of_mem hmem
  obtain rfl : i = c := by
    have htag : ((callsIn sent).map Prod.snd)[i]? = some c := by
      rw [List.getElem?_map, List.getElem?_eq_getElem hi, hget]
      rfl
    rw [h.order] at htag
    obtain ⟨hlt, hval⟩ := List.getElem?_eq_some_iff.mp htag
    rwa [List.getElem_range] at hval
  rw [List.getElem?_map, List.getElem?_eq_getElem hi, hget]
  rfl

/-- The other end unpacks it once at most. -/
theorem Answering.countP_call_le (h : Answering serves methods r seen sent) (c : Nat) :
    sent.countP (fun x => decide (x.1.type = call) && decide (x.2 = c)) ≤ 1 := by
  have hcount : sent.countP (fun x => decide (x.1.type = call) && decide (x.2 = c)) =
      ((callsIn sent).map Prod.snd).count c := by
    rw [callsIn, List.count, List.countP_map, List.countP_filter]
    apply List.countP_congr
    intro x _
    simp [and_comm]
  rw [hcount, h.order]
  exact List.nodup_iff_count_le_one.mp List.nodup_range c

private theorem seen_sublist (s : Sys β) (b : Bool) : (s.seen b).Sublist (s.sent (!b)) := List.take_sublist _ _

/-- A call with a value has a result that this is unpacked from. -/
theorem result_of_value {l : Link β} (h : l.Inv) {b : Bool} {c : Nat} {v : β} (hc : c < (l.ends b).calls)
    (hv : v ∈ ((l.ends b).mem c).values) :
    ∃ data, (c, data) ∈ (l.ends b).results ∧ ((l.ends b).mem c).values = [v] ∧
      ((l.ends b).mem c).unpack data = some v := by
  obtain ⟨horder, -, -, hresolved, hunresolved⟩ := h.ends b
  have hrange : c ∈ List.range (l.ends b).calls := List.mem_range.mpr hc
  have horder' : (l.ends b).results.map Prod.fst ++ (l.due b).map Prod.snd = List.range (l.ends b).calls := horder
  rw [← horder'] at hrange
  rcases List.mem_append.mp hrange with hres | hdue
  · obtain ⟨⟨c, data⟩, hmem, rfl⟩ := List.mem_map.mp hres
    have hvalues : ((l.ends b).mem c).values = (((l.ends b).mem c).unpack data).toList := hresolved _ hmem
    rw [hvalues, Option.mem_toList] at hv
    rw [hv] at hvalues
    exact ⟨data, hmem, hvalues, hv⟩
  · -- a call that is due has no value yet
    obtain ⟨d, hd, rfl⟩ := List.mem_map.mp hdue
    rw [show ((l.ends b).mem d.2).values = [] from hunresolved d hd] at hv
    cases hv

/-- In every run in range over the network, at both ends: the other end unpacks the message of a call once at most; the
promise has one value at most, and this is what the other end's method has returned for the argument of this very call
(nothing where there is no such method), unpacked from the reply with its id and method. -/
theorem calls_answered (C : Codec RpcMessage) (hC : C.Strict) (mwp : Peer → BitVec 16) (hm : ∀ p, (mwp p).toNat ≤ 4096)
    (methods : Bool → UInt32 → Bool) (serves : Bool → UInt32 → List UInt8 → List UInt8 → Prop) (es : List (Event β))
    (s : Sys β) (hrun : run (Sys.step C) (.init mwp methods) es = some s)
    (hg : Guarded (Sys.step C) (fun s e => s.InRange C e ∧ s.Serves serves e) (.init mwp methods) es) (b : Bool) (c : Nat)
    (hc : c < (s.ends b).calls) :
    (s.seen (!b)).countP (fun x => decide (x.1.type = call) && decide (x.2 = c)) ≤ 1 ∧
      ∀ v ∈ ((s.ends b).mem c).values, ((s.ends b).mem c).values = [v] ∧
        ∃ q m, (q, c) ∈ s.seen (!b) ∧ q.type = call ∧ (es.filterMap (invoked b))[c]? = some (q.method, q.data) ∧
          (m, c) ∈ s.seen b ∧ m.type = result ∧ m.id = q.id ∧ m.method = q.method ∧
          Replies (serves (!b)) (methods (!b)) q m.data ∧ ((s.ends b).mem c).unpack m.data = some v := by
  have hrange : Guarded (Sys.step C) (Sys.InRange C) (.init mwp methods : Sys β) es :=
    guarded_of_invariant (fun _ => True) (fun _ _ _ _ _ _ => trivial) (fun _ _ _ h => h.1) trivial hg
  obtain ⟨hans, hcalled⟩ := (BothAnswering.init mwp).run hC (.init hm methods) hg hrun
  have hsim := (run_simulated (Inv C) Sys.view Event.rpc? (fun _ _ _ h hok hs => h.step hC hok hs) (.init hm methods)
    hrange hrun).2
  have hlink : s.view.Inv := invariant_of_step Link.Inv (fun _ _ _ => inv_step) (.init methods) hsim
  have hinvoked : es.filterMap (invoked b) = (callsIn (s.sent b)).map fun x => (x.1.method, x.1.data) := (hcalled b).symm
  have hsub := seen_sublist s (!b)
  rw [Bool.not_not] at hsub
  refine ⟨hsub.countP_le.trans ((hans b).countP_call_le c), fun v hv => ?_⟩
  obtain ⟨data, hres, hvalues, hdata⟩ := result_of_value hlink hc hv
  change (c, data) ∈ (s.ends b).results at hres
  rw [(hans b).results] at hres
  obtain ⟨⟨m, tag⟩, hseen, hanswer⟩ := List.mem_filterMap.mp hres
  by_cases hm : m.type = result
  · rw [answer, if_pos hm] at hanswer
    cases hanswer
    obtain ⟨q, hq, hcall, hid, hmethod, hreplies⟩ := (hans (!b)).replies _ ((seen_sublist s b).mem hseen) hm
    refine ⟨hvalues, q, m, hq, hcall, ?_, hseen, hm, hid.symm, hmethod.symm, hreplies, hdata⟩
    rw [hinvoked]
    exact (hans b).called (hsub.mem hq) hcall
  · simp [answer, hm] at hanswer

/-- A method that returns 5 and the length of its argument. -/
def lengthMethod (_ : Bool) (_ : UInt32) (arg out : List UInt8) : Prop := out = [5, UInt8.ofNat arg.length]

instance (b : Bool) (m : UInt32) (arg out : List UInt8) : Decidable (lengthMethod b m arg out) :=
  inferInstanceAs (Decidable (out = [5, UInt8.ofNat arg.length]))

theorem calls_answered_lossy :
    ∃ s, run (Sys.step rawCodec) (.init (fun _ => 4096) fun _ _ => true) lossyRun = some s ∧
      ((s.ends true).mem 0).values = [2] ∧
      ∃ q m, (q, 0) ∈ s.seen false ∧ q.type = call ∧ (lossyRun.filterMap (invoked true))[0]? = some (q.method, q.data) ∧
        (m, 0) ∈ s.seen true ∧ m.type = result ∧ m.id = q.id ∧ m.method = q.method ∧
        Replies (lengthMethod false) (fun _ => true) q m.data ∧ ((s.ends true).mem 0).unpack m.data = some 2 := by
  have hvalues : (run (Sys.step rawCodec) (.init (fun _ => 4096) fun _ _ => true) lossyRun).map
      (fun s => ((s.ends true).calls, ((s.ends true).mem 0).values)) = some (1, [2]) := by decide +kernel
  obtain ⟨s, hrun, hs⟩ := Option.map_eq_some_iff.mp hvalues
  obtain ⟨hc, hv⟩ := Prod.mk.inj hs
  have hanswered := calls_answered rawCodec rawCodec_strict _ (fun _ => by decide) _ lengthMethod lossyRun s hrun
    (by decide +kernel) true 0 (by rw [hc]; decide)
  exact ⟨s, hrun, hanswered.2 2 (by rw [hv]; decide)⟩

end Tornet.Rpc.Transport
