import Tornet.Library.Linked
import Tornet.Library.Runs
import Tornet.Rpc.Basic

/-! The promises of outstanding calls: the intrusive list of `raw_rpc`, and two ends that call each
other over a channel that keeps the order of the messages. -/
namespace Tornet.Rpc.Pending
open Library Runs Linked

variable {β : Type}

/-- `rpc_message::types`. -/
def notice : UInt8 := 1
def call : UInt8 := 2
def result : UInt8 := 3
def error : UInt8 := 4

/-- `promise<Result>` in memory. `unpack` is `fc::raw::unpack<Result>`, which throws where it is
`none`; `values` is what `set_value` was called with. -/
structure Promise (β : Type) where
  reqId : UInt16
  next : Option Nat
  unpack : List UInt8 → Option β
  values : List β

/-- Where the `read_loop` is: at the next message, inside a method of which the reply is kept, inside
the method of a notice, or out of the loop. The number is the call the reply belongs to. -/
inductive Loop where
  | idle
  | calling (reply : RpcMessage) (tag : Nat)
  | noticing
  | ended (left : Option (UInt16 × Nat))

/-- `raw_rpc`. The promise of the `k`-th `invoke` has address `k`; `results` is a history variable,
with the calls whose result messages were read and the data of these. -/
structure RawRpc (β : Type) where
  mem : Nat → Promise β
  calls : Nat := 0
  pendingHead : Option Nat := none
  pendingTail : Option Nat := none
  reqId : UInt16 := 0
  methods : UInt32 → Bool
  loop : Loop := .idle
  results : List (Nat × List UInt8) := []

/-- `raw_rpc()`, with the methods that were added. -/
def RawRpc.init (methods : UInt32 → Bool) : RawRpc β :=
  { mem := fun _ => { reqId := 0, next := none, unpack := fun _ => none, values := [] }, methods }

namespace RawRpc

/-- The `_next` pointers. -/
def links (r : RawRpc β) (p : Nat) : Option Nat := (r.mem p).next

def setNext (r : RawRpc β) (p : Nat) (v : Option Nat) : RawRpc β :=
  { r with mem := Function.update r.mem p { r.mem p with next := v } }

/-- `enqueue_promise`. -/
def enqueuePromise (r : RawRpc β) (p : Nat) : RawRpc β :=
  let r := r.setNext p none
  match r.pendingTail with
  | some t => { r.setNext t (some p) with pendingTail := some p }
  | none => { r with pendingHead := some p, pendingTail := some p }

/-- What `pop_promise` does with the element it has found: the link before it, or the head,
takes over its link, and the tail moves back where it was the last. -/
def unlinkAt (r : RawRpc β) (prev : Option Nat) (cur : Nat) : RawRpc β :=
  let s := match prev with
    | some y => r.setNext y (r.mem cur).next
    | none => { r with pendingHead := (r.mem cur).next }
  let t := if r.pendingTail = some cur then { s with pendingTail := prev } else s
  t.setNext cur none

/-- `pop_promise`: the first promise with the id is unlinked. -/
def popPromise (r : RawRpc β) (id : UInt16) : Option Nat × RawRpc β :=
  match seek r.links (fun p => (r.mem p).reqId == id) (r.calls + 1) none r.pendingHead with
  | none => (none, r)
  | some (prev, cur) => (some cur, r.unlinkAt prev cur)

/-- `handle_result`: `none` where `unpack` throws. -/
def handleResult (r : RawRpc β) (p : Nat) (data : List UInt8) : Option (RawRpc β) :=
  ((r.mem p).unpack data).map fun v =>
    { r with mem := Function.update r.mem p { r.mem p with values := (r.mem p).values ++ [v] } }

/-- The promise of `invoke`, with the next id. -/
def newPromise (r : RawRpc β) (unpack : List UInt8 → Option β) : RawRpc β :=
  { r with
    mem := Function.update r.mem r.calls { reqId := r.reqId + 1, next := none, unpack, values := [] }
    calls := r.calls + 1
    reqId := r.reqId + 1 }

/-- The list part of `invoke`. -/
def invoke (r : RawRpc β) (unpack : List UInt8 → Option β) : RawRpc β :=
  (r.newPromise unpack).enqueuePromise r.calls

/-- The `result` case of the loop; where `handle_result` throws, the loop is left. -/
def onResult (r : RawRpc β) (m : RpcMessage) (tag : Nat) : RawRpc β :=
  let r := { r with results := r.results ++ [(tag, m.data)] }
  match r.popPromise m.id with
  | (none, s) => s
  | (some p, s) => (s.handleResult p m.data).getD { s with loop := .ended none }

end RawRpc

/-- Two ends, and for each the messages it has written and the other has not read. A message of a
call, and the reply to it, are marked with the number of the call. -/
structure Link (β : Type) where
  ends : Bool → RawRpc β
  wire : Bool → List (RpcMessage × Nat)

def Link.init (methods : Bool → UInt32 → Bool) : Link β :=
  { ends := fun b => .init (methods b), wire := fun _ => [] }

/-- What happens at one end: a call, a notice, the next message, the return of the method that the
loop is in, or an exception out of it or out of the `send` of its reply. -/
inductive Event (β : Type) where
  | invoke (b : Bool) (method : UInt32) (data : List UInt8) (unpack : List UInt8 → Option β)
  | notice (b : Bool) (id : UInt16) (method : UInt32) (data : List UInt8)
  | read (b : Bool)
  | returns (b : Bool) (data : List UInt8)
  | throws (b : Bool)

namespace Link

def setEnd (s : Link β) (b : Bool) (r : RawRpc β) : Link β :=
  { s with ends := Function.update s.ends b r }

/-- `send`: the whole message is behind those written before. -/
def send (s : Link β) (b : Bool) (m : RpcMessage) (tag : Nat) : Link β :=
  { s with wire := Function.update s.wire b (s.wire b ++ [(m, tag)]) }

/-- The next message of an end is taken from the wire. -/
def pull (s : Link β) (b : Bool) (rest : List (RpcMessage × Nat)) : Link β :=
  { s with wire := Function.update s.wire (!b) rest }

/-- `invoke`. -/
def invoke (s : Link β) (b : Bool) (method : UInt32) (data : List UInt8)
    (unpack : List UInt8 → Option β) : Link β :=
  let r := s.ends b
  (s.setEnd b (r.invoke unpack)).send b ⟨r.reqId + 1, call, method, data⟩ r.calls

/-- The body of the `read_loop` for one message. -/
def dispatch (s : Link β) (b : Bool) (m : RpcMessage) (tag : Nat) : Link β :=
  let r := s.ends b
  if m.type = result then s.setEnd b (r.onResult m tag)
  else if m.type = error then s.setEnd b (r.popPromise m.id).2
  else if m.type = Pending.notice then
    if r.methods m.method then s.setEnd b { r with loop := .noticing } else s
  else if m.type = call then
    let reply : RpcMessage := ⟨m.id, result, m.method, []⟩
    if r.methods m.method then s.setEnd b { r with loop := .calling reply tag } else s.send b reply tag
  else s

/-- The method is left by an exception, and the loop with it; a call stays without a reply. -/
def throws (s : Link β) (b : Bool) (left : Option (UInt16 × Nat)) : Link β :=
  s.setEnd b { s.ends b with loop := .ended left }

end Link

/-- One event; `none` where the end is not at that point. -/
def step (s : Link β) : Event β → Option (Link β)
  | .invoke b method data unpack => some (s.invoke b method data unpack)
  | .notice b id method data => some (s.send b ⟨id, notice, method, data⟩ 0)
  | .read b =>
    match (s.ends b).loop, s.wire (!b) with
    | .idle, (m, tag) :: rest => some ((s.pull b rest).dispatch b m tag)
    | _, _ => none
  | .returns b data =>
    match (s.ends b).loop with
    | .calling reply tag =>
      some ((s.setEnd b { s.ends b with loop := .idle }).send b { reply with data } tag)
    | .noticing => some (s.setEnd b { s.ends b with loop := .idle })
    | _ => none
  | .throws b =>
    match (s.ends b).loop with
    | .calling reply tag => some (s.throws b (some (reply.id, tag)))
    | .noticing => some (s.throws b none)
    | _ => none

namespace RawRpc

variable {r s t : RawRpc β} {p x : Nat} {a b l : List Nat} {id : UInt16} {due : List (UInt16 × Nat)}

@[simp] theorem links_setNext (r : RawRpc β) (p : Nat) (v : Option Nat) :
    (r.setNext p v).links = Function.update r.links p v := by
  funext q
  by_cases hq : q = p
  · subst hq
    simp [links, setNext]
  · simp [links, setNext, hq]

/-- Nothing but links, head and tail has changed. -/
structure Relinked (r s : RawRpc β) : Prop where
  reqId : ∀ p, (s.mem p).reqId = (r.mem p).reqId
  unpack : ∀ p, (s.mem p).unpack = (r.mem p).unpack
  values : ∀ p, (s.mem p).values = (r.mem p).values
  calls : s.calls = r.calls
  results : s.results = r.results
  loop : s.loop = r.loop

theorem Relinked.trans (h : Relinked r s) (h' : Relinked s t) : Relinked r t :=
  ⟨fun p => (h'.reqId p).trans (h.reqId p), fun p => (h'.unpack p).trans (h.unpack p),
    fun p => (h'.values p).trans (h.values p), h'.calls.trans h.calls, h'.results.trans h.results,
    h'.loop.trans h.loop⟩

theorem relinked_pointers (r : RawRpc β) (head tail : Option Nat) :
    Relinked r { r with pendingHead := head, pendingTail := tail } :=
  ⟨fun _ => rfl, fun _ => rfl, fun _ => rfl, rfl, rfl, rfl⟩

theorem relinked_setNext (r : RawRpc β) (p : Nat) (v : Option Nat) : Relinked r (r.setNext p v) := by
  constructor
  case calls => rfl
  case results => rfl
  case loop => rfl
  all_goals
    intro q
    by_cases hq : q = p
    · subst hq
      simp [setNext]
    · simp [setNext, hq]

theorem relinked_enqueuePromise (r : RawRpc β) (p : Nat) : Relinked r (r.enqueuePromise p) := by
  have hp := relinked_setNext r p none
  rw [enqueuePromise]
  split
  · rename_i t _
    exact (hp.trans (relinked_setNext _ t (some p))).trans (relinked_pointers _ _ (some p))
  · exact hp.trans (relinked_pointers _ (some p) (some p))

/-- `enqueue_promise` appends. -/
theorem queue_enqueuePromise (h : Queue r.links r.pendingHead r.pendingTail l) (hp : p ∉ l) :
    Queue (r.enqueuePromise p).links (r.enqueuePromise p).pendingHead (r.enqueuePromise p).pendingTail
      (l ++ [p]) := by
  cases ht : r.pendingTail with
  | none =>
    have hl : l = [] := by
      have := h.last
      rw [ht] at this
      exact List.getLast?_eq_none_iff.mp this.symm
    have heq : r.enqueuePromise p =
        { r.setNext p none with pendingHead := some p, pendingTail := some p } := by
      simp [enqueuePromise, setNext, ht]
    rw [heq, hl]
    show Queue (r.setNext p none).links (some p) (some p) [p]
    rw [links_setNext]
    exact Queue.first p
  | some t =>
    have heq : r.enqueuePromise p =
        { (r.setNext p none).setNext t (some p) with pendingTail := some p } := by
      simp [enqueuePromise, setNext, ht]
    rw [heq]
    show Queue ((r.setNext p none).setNext t (some p)).links r.pendingHead (some p) (l ++ [p])
    rw [links_setNext, links_setNext]
    rw [ht] at h
    exact h.push hp

theorem relinked_unlinkAt (r : RawRpc β) (prev : Option Nat) (cur : Nat) :
    Relinked r (r.unlinkAt prev cur) := by
  have hs : ∀ s, Relinked r s → Relinked r
      ((if r.pendingTail = some cur then { s with pendingTail := prev } else s).setNext cur none) := by
    intro s hs
    refine Relinked.trans ?_ (relinked_setNext _ cur none)
    split_ifs
    · exact hs.trans (relinked_pointers s s.pendingHead prev)
    · exact hs
  cases prev with
  | none => exact hs _ (relinked_pointers r _ r.pendingTail)
  | some y => exact hs _ (relinked_setNext r y _)

theorem queue_unlinkAt (h : Queue r.links r.pendingHead r.pendingTail (a ++ x :: b)) :
    Queue (r.unlinkAt a.getLast? x).links (r.unlinkAt a.getLast? x).pendingHead
      (r.unlinkAt a.getLast? x).pendingTail (a ++ b) := by
  rcases List.eq_nil_or_concat' a with rfl | ⟨a, y, rfl⟩
  · have hl : (r.unlinkAt none x).links = Function.update r.links x none := by
      rw [unlinkAt, links_setNext]
      split_ifs <;> rfl
    have ht : (r.unlinkAt none x).pendingTail = if r.pendingTail = some x then none else r.pendingTail := by
      rw [unlinkAt]
      split_ifs <;> rfl
    have hh : (r.unlinkAt none x).pendingHead = r.links x := by
      rw [unlinkAt]
      split_ifs <;> rfl
    rw [List.getLast?_nil, hl, hh, ht]
    exact Queue.unlink_first h
  · have hl : (r.unlinkAt (some y) x).links =
        Function.update (Function.update r.links y (r.links x)) x none := by
      rw [unlinkAt, links_setNext]
      split_ifs <;> exact congrArg (Function.update · x none) (links_setNext r y _)
    have ht : (r.unlinkAt (some y) x).pendingTail =
        if r.pendingTail = some x then some y else r.pendingTail := by
      rw [unlinkAt]
      split_ifs <;> rfl
    have hh : (r.unlinkAt (some y) x).pendingHead = r.pendingHead := by
      rw [unlinkAt]
      split_ifs <;> rfl
    rw [List.getLast?_append, List.getLast?_singleton, Option.some_or, hl, hh, ht]
    exact Queue.unlink_after h

/-- `pop_promise` finds the first promise with the id, at any place of the list. -/
theorem popPromise_eq (h : Queue r.links r.pendingHead r.pendingTail (a ++ x :: b))
    (hmiss : ∀ y ∈ a, (r.mem y).reqId ≠ id) (hx : (r.mem x).reqId = id) (hfuel : a.length ≤ r.calls) :
    r.popPromise id = (some x, r.unlinkAt a.getLast? x) := by
  have hseek : seek r.links (fun p => (r.mem p).reqId == id) (r.calls + 1) none r.pendingHead =
      some (a.getLast?.or none, x) :=
    seek_eq_some h.path (fun y hy => beq_eq_false_iff_ne.mpr (hmiss y hy)) (beq_iff_eq.mpr hx)
      (Nat.lt_succ_of_le hfuel)
  rw [popPromise, hseek, Option.or_none]

/-- The calls for which no result message was read yet, oldest first. -/
def unanswered (r : RawRpc β) : List Nat :=
  (List.range r.calls).filter fun c => c ∉ r.results.map Prod.fst

/-- The calls in `due`, with their ids, are those that still get a result, in this order. -/
structure Inv (r : RawRpc β) (due : List (UInt16 × Nat)) : Prop where
  order : r.results.map Prod.fst ++ due.map Prod.snd = List.range r.calls
  ids : ∀ d ∈ due, (r.mem d.2).reqId = d.1
  queue : Queue r.links r.pendingHead r.pendingTail (due.map Prod.snd)
  resolved : ∀ c ∈ r.results, (r.mem c.1).values = ((r.mem c.1).unpack c.2).toList
  unresolved : ∀ d ∈ due, (r.mem d.2).values = []

theorem Inv.unanswered_eq (h : r.Inv due) : r.unanswered = due.map Prod.snd := by
  have hn : (r.results.map Prod.fst ++ due.map Prod.snd).Nodup := h.order ▸ List.nodup_range
  have hd := (List.nodup_append.mp hn).2.2
  rw [unanswered, ← h.order, List.filter_append]
  have hleft : (r.results.map Prod.fst).filter (fun c => c ∉ r.results.map Prod.fst) = [] := by
    rw [List.filter_eq_nil_iff]
    intro c hc
    simpa using hc
  have hright : (due.map Prod.snd).filter (fun c => c ∉ r.results.map Prod.fst) = due.map Prod.snd := by
    rw [List.filter_eq_self]
    intro c hc
    exact decide_eq_true fun hr => hd c hr c hc rfl
  rw [hleft, hright, List.nil_append]

theorem Inv.lt_calls (h : r.Inv due) {d : UInt16 × Nat} (hd : d ∈ due) : d.2 < r.calls := by
  rw [← List.mem_range, ← h.order]
  exact List.mem_append_right _ (List.mem_map_of_mem hd)

theorem Inv.result_lt (h : r.Inv due) {c : Nat × List UInt8} (hc : c ∈ r.results) : c.1 < r.calls := by
  rw [← List.mem_range, ← h.order]
  exact List.mem_append_left _ (List.mem_map_of_mem hc)

theorem Inv.init (methods : UInt32 → Bool) : (RawRpc.init methods : RawRpc β).Inv [] :=
  ⟨rfl, by simp, Queue.empty _, by simp [RawRpc.init], by simp⟩

/-- The invariant does not see where the loop is. -/
theorem Inv.setLoop (h : r.Inv due) (loop : Loop) : { r with loop := loop }.Inv due :=
  ⟨h.order, h.ids, h.queue, h.resolved, h.unresolved⟩

/-- A call is due after all others. -/
theorem Inv.invoke (h : r.Inv due) (unpack : List UInt8 → Option β) :
    (r.invoke unpack).Inv (due ++ [(r.reqId + 1, r.calls)]) := by
  have hne : ∀ c, c < r.calls → (r.newPromise unpack).mem c = r.mem c := fun c hc =>
    Function.update_of_ne (Nat.ne_of_lt hc) _ _
  have hnew : (r.newPromise unpack).mem r.calls = ⟨r.reqId + 1, none, unpack, []⟩ :=
    Function.update_self ..
  have hre := relinked_enqueuePromise (r.newPromise unpack) r.calls
  have hq : Queue (r.newPromise unpack).links r.pendingHead r.pendingTail (due.map Prod.snd) := by
    apply h.queue.congr
    intro c hc
    obtain ⟨d, hd, rfl⟩ := List.mem_map.mp hc
    exact congrArg Promise.next (hne _ (h.lt_calls hd))
  have hfresh : r.calls ∉ due.map Prod.snd := by
    intro hc
    obtain ⟨d, hd, hdc⟩ := List.mem_map.mp hc
    exact absurd (h.lt_calls hd) (by omega)
  refine ⟨?_, ?_, ?_, ?_, ?_⟩
  · rw [RawRpc.invoke, hre.results, hre.calls, List.map_append, ← List.append_assoc]
    show _ = List.range (r.calls + 1)
    rw [List.range_succ, ← h.order]
    rfl
  · intro d hd
    rw [RawRpc.invoke, hre.reqId]
    rcases List.mem_append.mp hd with hd | hd
    · rw [hne _ (h.lt_calls hd)]
      exact h.ids d hd
    · rw [List.mem_singleton.mp hd, hnew]
  · rw [List.map_append]
    exact queue_enqueuePromise hq hfresh
  · intro c hc
    rw [RawRpc.invoke, hre.results] at hc
    rw [RawRpc.invoke, hre.values, hre.unpack, hne _ (h.result_lt hc)]
    exact h.resolved c hc
  · intro d hd
    rw [RawRpc.invoke, hre.values]
    rcases List.mem_append.mp hd with hd | hd
    · rw [hne _ (h.lt_calls hd)]
      exact h.unresolved d hd
    · rw [List.mem_singleton.mp hd, hnew]

/-- The oldest call has its result: it leaves the list, and its promise has the value. -/
theorem Inv.answered {d : UInt16 × Nat} {data : List UInt8} (h : r.Inv (d :: due))
    (hre : Relinked { r with results := r.results ++ [(d.2, data)] } s)
    (hq : Queue s.links s.pendingHead s.pendingTail (due.map Prod.snd)) (loop : Loop) :
    { s with
      mem := Function.update s.mem d.2
        { s.mem d.2 with values := ((s.mem d.2).values ++ ((s.mem d.2).unpack data).toList) }
      loop := loop }.Inv due := by
  have hn : (d.2 :: due.map Prod.snd).Nodup := h.queue.nodup
  have hold : ∀ c ∈ r.results, c.1 ≠ d.2 := by
    intro c hc heq
    have hall : (r.results.map Prod.fst ++ (d :: due).map Prod.snd).Nodup := h.order ▸ List.nodup_range
    exact (List.nodup_append.mp hall).2.2 _ (List.mem_map_of_mem hc) _ List.mem_cons_self heq
  have hnext : ∀ e ∈ due, e.2 ≠ d.2 := fun e he heq =>
    (List.nodup_cons.mp hn).1 (heq ▸ List.mem_map_of_mem he)
  refine ⟨?_, ?_, ?_, ?_, ?_⟩
  · show s.results.map Prod.fst ++ due.map Prod.snd = List.range s.calls
    rw [hre.results, hre.calls]
    simpa using h.order
  · intro e he
    simp only [Function.update_of_ne (hnext e he), hre.reqId]
    exact h.ids e (List.mem_cons_of_mem d he)
  · apply hq.congr
    intro c hc
    by_cases hcd : c = d.2
    · subst hcd
      simp [links]
    · simp [links, hcd]
  · intro c hc
    change c ∈ s.results at hc
    rw [hre.results] at hc
    rcases List.mem_append.mp hc with hc | hc
    · simp only [Function.update_of_ne (hold c hc), hre.values, hre.unpack]
      exact h.resolved c hc
    · rw [List.mem_singleton.mp hc]
      simp only [Function.update_self, hre.values, hre.unpack, h.unresolved d List.mem_cons_self,
        List.nil_append]
  · intro e he
    simp only [Function.update_of_ne (hnext e he), hre.values]
    exact h.unresolved e (List.mem_cons_of_mem d he)

/-- The result of the oldest call resolves its promise, whatever ids the others have. -/
theorem Inv.onResult {m : RpcMessage} {tag : Nat} (h : r.Inv ((m.id, tag) :: due)) :
    (r.onResult m tag).Inv due := by
  let u : RawRpc β := { r with results := r.results ++ [(tag, m.data)] }
  have hq : Queue u.links u.pendingHead u.pendingTail ([] ++ tag :: due.map Prod.snd) := h.queue
  have hpop : u.popPromise m.id = (some tag, u.unlinkAt none tag) :=
    popPromise_eq hq (by simp) (h.ids _ List.mem_cons_self) (Nat.zero_le _)
  have hre : Relinked u (u.unlinkAt none tag) := relinked_unlinkAt u none tag
  have hinv := h.answered hre (queue_unlinkAt hq)
  have heq : r.onResult m tag = ((u.unlinkAt none tag).handleResult tag m.data).getD
      { u.unlinkAt none tag with loop := .ended none } := by
    rw [RawRpc.onResult]
    simp only [hpop, u]
  rw [heq, handleResult]
  generalize hs : u.unlinkAt none tag = s at hinv
  cases hv : (s.mem tag).unpack m.data with
  | none => simpa [hv] using hinv (.ended none)
  | some v => simpa [hv] using hinv s.loop

private theorem loop_handleResult {data : List UInt8} (h : r.handleResult p data = some t) : t.loop = r.loop := by
  obtain ⟨v, -, rfl⟩ := Option.map_eq_some_iff.mp h
  rfl

private theorem loop_popPromise (r : RawRpc β) (id : UInt16) : (r.popPromise id).2.loop = r.loop := by
  rw [popPromise]
  split
  · rfl
  · exact (relinked_unlinkAt r _ _).loop

/-- After a result the loop goes on, or it is left without a call to answer. -/
theorem loop_onResult (r : RawRpc β) (m : RpcMessage) (tag : Nat) :
    (r.onResult m tag).loop = r.loop ∨ (r.onResult m tag).loop = .ended none := by
  have hpop := loop_popPromise { r with results := r.results ++ [(tag, m.data)] } m.id
  rw [onResult]
  split
  · rename_i heq
    left
    simpa [heq] using hpop
  · rename_i q s heq
    cases hv : s.handleResult q m.data with
    | none =>
      right
      rfl
    | some t =>
      left
      rw [Option.getD_some, loop_handleResult hv]
      simpa [heq] using hpop

end RawRpc

/-- The ids and calls of the messages of one type. -/
def marks (type : UInt8) (w : List (RpcMessage × Nat)) : List (UInt16 × Nat) :=
  (w.filter fun x => x.1.type = type).map fun x => (x.1.id, x.2)

@[simp] theorem marks_append (type : UInt8) (w v : List (RpcMessage × Nat)) :
    marks type (w ++ v) = marks type w ++ marks type v := by
  simp [marks]

theorem marks_cons_self {type : UInt8} {m : RpcMessage} {tag : Nat} {w : List (RpcMessage × Nat)}
    (h : m.type = type) : marks type ((m, tag) :: w) = (m.id, tag) :: marks type w := by
  simp [marks, h]

theorem marks_cons_ne {type : UInt8} {m : RpcMessage} {tag : Nat} {w : List (RpcMessage × Nat)}
    (h : m.type ≠ type) : marks type ((m, tag) :: w) = marks type w := by
  simp [marks, h]

/-- The call whose reply the loop still has to send. -/
def Loop.owes : Loop → List (UInt16 × Nat)
  | .calling reply tag => [(reply.id, tag)]
  | .ended left => left.toList
  | .idle | .noticing => []

@[simp] theorem Loop.owes_idle : Loop.idle.owes = [] := rfl

namespace Link

variable {s t : Link β} {b : Bool}

/-- The calls of an end without a result: results under way, the call the other end works on, and
calls under way. -/
def due (s : Link β) (b : Bool) : List (UInt16 × Nat) :=
  marks result (s.wire (!b)) ++ (s.ends (!b)).loop.owes ++ marks call (s.wire b)

/-- The invariant of both ends; no end ever writes an error. -/
structure Inv (s : Link β) : Prop where
  ends : ∀ b, (s.ends b).Inv (s.due b)
  noError : ∀ b, ∀ x ∈ s.wire b, x.1.type ≠ error
  reply : ∀ b reply tag, (s.ends b).loop = .calling reply tag → reply.type = result

theorem Inv.init (methods : Bool → UInt32 → Bool) : (Link.init methods : Link β).Inv :=
  ⟨fun b => .init (methods b), by simp [Link.init], by simp [Link.init, RawRpc.init]⟩

/-- A step that moves only the loops keeps the promises where it keeps what is due. -/
theorem Inv.of_due (h : s.Inv) (hends : ∀ b, ∃ loop, t.ends b = { s.ends b with loop := loop })
    (hdue : ∀ b, t.due b = s.due b) (b : Bool) : (t.ends b).Inv (t.due b) := by
  obtain ⟨loop, hb⟩ := hends b
  rw [hdue, hb]
  exact (h.ends b).setLoop loop

theorem forall_side {P : Bool → Prop} (b : Bool) (hb : P b) (hnot : P (!b)) : ∀ c, P c := by
  intro c
  by_cases hc : c = b
  · exact hc ▸ hb
  · exact (Bool.eq_not_of_ne hc) ▸ hnot

theorem noError_send {m : RpcMessage} {tag : Nat} (h : ∀ c, ∀ x ∈ s.wire c, x.1.type ≠ error)
    (hm : m.type ≠ error) : ∀ c, ∀ x ∈ (s.send b m tag).wire c, x.1.type ≠ error := by
  refine forall_side b ?_ ?_
  · intro x hx
    simp only [send, Function.update_self, List.mem_append, List.mem_singleton] at hx
    rcases hx with hx | rfl
    · exact h b x hx
    · exact hm
  · simpa [send] using h (!b)

theorem Inv.invoke (h : s.Inv) (method : UInt32) (data : List UInt8) (unpack : List UInt8 → Option β) :
    (s.invoke b method data unpack).Inv := by
  have hloop : ((s.ends b).invoke unpack).loop = (s.ends b).loop :=
    (RawRpc.relinked_enqueuePromise _ _).loop
  refine ⟨forall_side b ?_ ?_, ?_, forall_side b ?_ ?_⟩
  · have hinv := (h.ends b).invoke unpack
    simpa [Link.invoke, send, setEnd, due, marks, result, call] using hinv
  · have hinv := h.ends (!b)
    simpa [Link.invoke, send, setEnd, due, marks, result, call, hloop] using hinv
  · exact noError_send (s := s.setEnd b _) h.noError (show call ≠ error by decide)
  · simpa [Link.invoke, send, setEnd, hloop] using h.reply b
  · simpa [Link.invoke, send, setEnd] using h.reply (!b)

/-- A message that is no result and no call changes nothing that is due. -/
theorem Inv.notice (h : s.Inv) (id : UInt16) (method : UInt32) (data : List UInt8) :
    (s.send b ⟨id, Pending.notice, method, data⟩ 0).Inv := by
  refine ⟨h.of_due (fun c => ⟨(s.ends c).loop, rfl⟩) (forall_side b ?_ ?_), ?_, h.reply⟩
  · simp [send, due, marks, Pending.notice, call]
  · simp [send, due, marks, Pending.notice, result]
  · exact noError_send h.noError (show Pending.notice ≠ error by decide)

/-- The loop of an end that is at the next message moves on, and nothing else does. -/
theorem exists_setEnd (s : Link β) (b : Bool) (loop : Loop) (c : Bool) :
    ∃ l, (s.setEnd b { s.ends b with loop := loop }).ends c = { s.ends c with loop := l } := by
  revert c
  refine forall_side b ?_ ?_
  · exact ⟨loop, by simp [setEnd]⟩
  · exact ⟨(s.ends (!b)).loop, by simp [setEnd]⟩

theorem noError_pull {x : RpcMessage × Nat} {rest : List (RpcMessage × Nat)} (h : s.Inv)
    (hw : s.wire (!b) = x :: rest) : ∀ c, ∀ y ∈ (s.pull b rest).wire c, y.1.type ≠ error := by
  refine forall_side (!b) ?_ ?_
  · intro y hy
    simp only [pull, Function.update_self] at hy
    exact h.noError (!b) y (hw ▸ List.mem_cons_of_mem x hy)
  · simpa [pull] using h.noError b

theorem Inv.onResult {m : RpcMessage} {tag : Nat} {rest : List (RpcMessage × Nat)} (h : s.Inv)
    (hl : (s.ends b).loop = .idle) (hw : s.wire (!b) = (m, tag) :: rest) (hm : m.type = result) :
    ((s.pull b rest).setEnd b ((s.ends b).onResult m tag)).Inv := by
  have hcall : m.type ≠ call := by rw [hm]; decide
  have howes : ((s.ends b).onResult m tag).loop.owes = [] := by
    rcases (s.ends b).loop_onResult m tag with heq | heq <;> simp [heq, hl, Loop.owes]
  refine ⟨forall_side b ?_ ?_, noError_pull h hw, forall_side b ?_ ?_⟩
  · have hinv := h.ends b
    rw [due, hw, marks_cons_self hm, List.cons_append, List.cons_append] at hinv
    simpa [pull, setEnd, due] using hinv.onResult
  · have hinv := h.ends (!b)
    rw [due, hw, marks_cons_ne hcall, Bool.not_not, hl] at hinv
    simpa [pull, setEnd, due, howes] using hinv
  · intro reply t heq
    rw [show ((s.pull b rest).setEnd b ((s.ends b).onResult m tag)).ends b = (s.ends b).onResult m tag
      by simp [setEnd]] at heq
    rw [heq] at howes
    cases howes
  · simpa [pull, setEnd] using h.reply (!b)

/-- A call that is read is owed, or answered at once where the method is unknown. -/
theorem Inv.onCall {m : RpcMessage} {tag : Nat} {rest : List (RpcMessage × Nat)} (h : s.Inv)
    (hl : (s.ends b).loop = .idle) (hw : s.wire (!b) = (m, tag) :: rest) (hm : m.type = call) :
    ((s.pull b rest).setEnd b
      { s.ends b with loop := .calling ⟨m.id, result, m.method, []⟩ tag }).Inv ∧
    ((s.pull b rest).send b ⟨m.id, result, m.method, []⟩ tag).Inv := by
  have hres : m.type ≠ result := by rw [hm]; decide
  have hb : s.due b = marks result rest ++ (s.ends (!b)).loop.owes ++ marks call (s.wire b) := by
    rw [due, hw, marks_cons_ne hres]
  have hnot : s.due (!b) = marks result (s.wire b) ++ [(m.id, tag)] ++ marks call rest := by
    rw [due, hw, marks_cons_self hm, Bool.not_not, hl]
    simp
  constructor
  · refine ⟨h.of_due (exists_setEnd s b _) (forall_side b ?_ ?_), noError_pull h hw, forall_side b ?_ ?_⟩
    · rw [hb]
      simp [pull, setEnd, due]
    · rw [hnot]
      simp [pull, setEnd, due, Loop.owes]
    · intro reply t heq
      simp only [setEnd, Function.update_self, Loop.calling.injEq] at heq
      rw [← heq.1]
    · simpa [pull, setEnd] using h.reply (!b)
  · refine ⟨h.of_due (fun c => ⟨(s.ends c).loop, rfl⟩) (forall_side b ?_ ?_), ?_, h.reply⟩
    · rw [hb]
      simp [pull, send, due, marks, result, call]
    · rw [hnot]
      simp [pull, send, due, marks, result, hl]
    · exact noError_send (noError_pull h hw) (show result ≠ error by decide)

/-- A message that is neither a result nor a call moves at most the loop. -/
theorem Inv.onOther {m : RpcMessage} {tag : Nat} {rest : List (RpcMessage × Nat)} {loop : Loop} (h : s.Inv)
    (hl : (s.ends b).loop = .idle) (hw : s.wire (!b) = (m, tag) :: rest) (hres : m.type ≠ result)
    (hcall : m.type ≠ call) (hloop : loop = .idle ∨ loop = .noticing) :
    ((s.pull b rest).setEnd b { s.ends b with loop := loop }).Inv := by
  have howes : loop.owes = [] := by
    rcases hloop with rfl | rfl <;> rfl
  refine ⟨h.of_due (exists_setEnd s b _) (forall_side b ?_ ?_), noError_pull h hw, forall_side b ?_ ?_⟩
  · rw [due, due, hw, marks_cons_ne hres]
    simp [pull, setEnd]
  · rw [due, due, hw, marks_cons_ne hcall, Bool.not_not, hl]
    simp [pull, setEnd, howes]
  · intro reply t heq
    simp only [setEnd, Function.update_self] at heq
    rcases hloop with rfl | rfl <;> cases heq
  · simpa [pull, setEnd] using h.reply (!b)

theorem setEnd_self (s : Link β) (b : Bool) : s.setEnd b (s.ends b) = s := by
  simp [setEnd]

/-- Reading one message keeps the invariant. -/
theorem Inv.dispatch {m : RpcMessage} {tag : Nat} {rest : List (RpcMessage × Nat)} (h : s.Inv)
    (hl : (s.ends b).loop = .idle) (hw : s.wire (!b) = (m, tag) :: rest) :
    ((s.pull b rest).dispatch b m tag).Inv := by
  have herr : m.type ≠ error := h.noError (!b) (m, tag) (hw ▸ List.mem_cons_self)
  have hstay : (s.pull b rest).setEnd b { s.ends b with loop := .idle } = s.pull b rest := by
    rw [← hl]
    exact setEnd_self (s.pull b rest) b
  rw [Link.dispatch]
  by_cases hres : m.type = result
  · rw [if_pos hres]
    exact h.onResult hl hw hres
  rw [if_neg hres, if_neg herr]
  by_cases hcall : m.type = call
  · have hnot : m.type ≠ Pending.notice := by rw [hcall]; decide
    rw [if_neg hnot, if_pos hcall]
    split_ifs
    · exact (h.onCall hl hw hcall).1
    · exact (h.onCall hl hw hcall).2
  · have hidle := h.onOther hl hw hres hcall (.inl rfl)
    rw [hstay] at hidle
    rw [if_neg hcall]
    split_ifs
    · exact h.onOther hl hw hres hcall (.inr rfl)
    · exact hidle
    · exact hidle

/-- The reply that was owed is under way. -/
theorem Inv.returns {reply : RpcMessage} {tag : Nat} (h : s.Inv) (hl : (s.ends b).loop = .calling reply tag)
    (data : List UInt8) :
    ((s.setEnd b { s.ends b with loop := .idle }).send b { reply with data } tag).Inv := by
  have hres : reply.type = result := h.reply b reply tag hl
  have hcall : ¬ reply.type = call := by rw [hres]; decide
  refine ⟨h.of_due (exists_setEnd s b _) (forall_side b ?_ ?_), ?_, forall_side b ?_ ?_⟩
  · simp [due, send, setEnd, marks, hcall]
  · rw [due, due, Bool.not_not, hl]
    simp [send, setEnd, marks, hres, Loop.owes]
  · exact noError_send (s := s.setEnd b _) h.noError (by rw [hres]; decide)
  · intro reply' tag' heq
    simp [send, setEnd] at heq
  · simpa [send, setEnd] using h.reply (!b)

/-- A loop that is left, or goes on after a notice, owes what it owed. -/
theorem Inv.setLoop {loop : Loop} (h : s.Inv) (howes : loop.owes = (s.ends b).loop.owes)
    (hloop : ∀ reply tag, loop ≠ .calling reply tag) :
    (s.setEnd b { s.ends b with loop := loop }).Inv := by
  refine ⟨h.of_due (exists_setEnd s b _) (forall_side b ?_ ?_), h.noError, forall_side b ?_ ?_⟩
  · simp [due, setEnd]
  · simp [due, setEnd, howes]
  · intro reply tag heq
    simp only [setEnd, Function.update_self] at heq
    exact absurd heq (hloop reply tag)
  · simpa [setEnd] using h.reply (!b)

end Link

/-- Every step keeps the invariant. -/
theorem inv_step {s t : Link β} {e : Event β} (h : s.Inv) (hs : step s e = some t) : t.Inv := by
  cases e with
  | invoke b method data unpack =>
    cases hs
    exact h.invoke method data unpack
  | notice b id method data =>
    cases hs
    exact h.notice id method data
  | read b =>
    simp only [step] at hs
    split at hs
    · rename_i m tag rest hl hw
      cases hs
      exact h.dispatch hl hw
    · cases hs
  | returns b data =>
    simp only [step] at hs
    split at hs
    · rename_i reply tag hl
      cases hs
      exact h.returns hl data
    · rename_i hl
      cases hs
      exact h.setLoop (by rw [hl]; rfl) (fun _ _ => by simp)
    · cases hs
  | throws b =>
    simp only [step] at hs
    split at hs
    · rename_i reply tag hl
      cases hs
      exact h.setLoop (by rw [hl]; rfl) (fun _ _ => by simp)
    · rename_i hl
      cases hs
      exact h.setLoop (by rw [hl]; rfl) (fun _ _ => by simp)
    · cases hs

/-- In every state of every run, at both ends: the list is the queue of the calls without a result,
with its tail pointer; every result message has resolved the promise of the call it answers, and no
call has two; and no other promise is resolved. Where `unpack` throws on the data there is no value
to resolve the promise with. -/
theorem replies_matched {methods : Bool → UInt32 → Bool} {es : List (Event β)} {s : Link β}
    (hr : run step (Link.init methods) es = some s) (b : Bool) :
    Queue (s.ends b).links (s.ends b).pendingHead (s.ends b).pendingTail (s.ends b).unanswered ∧
      ((s.ends b).results.map Prod.fst).Nodup ∧
      (∀ c ∈ (s.ends b).results,
        ((s.ends b).mem c.1).values = (((s.ends b).mem c.1).unpack c.2).toList) ∧
      ∀ c ∈ (s.ends b).unanswered, ((s.ends b).mem c).values = [] := by
  have hinv := (invariant_of_step Link.Inv (fun _ _ _ => inv_step) (.init methods) hr).ends b
  have hn : ((s.ends b).results.map Prod.fst ++ (s.due b).map Prod.snd).Nodup :=
    hinv.order ▸ List.nodup_range
  rw [hinv.unanswered_eq]
  refine ⟨hinv.queue, (List.nodup_append.mp hn).1, hinv.resolved, ?_⟩
  intro c hc
  obtain ⟨d, hd, rfl⟩ := List.mem_map.mp hc
  exact hinv.unresolved d hd

def twoCalls : List (Event Nat) :=
  [.invoke true 7 [1] fun d => some d.length, .invoke true 7 [2] fun d => some d.length, .read false,
    .returns false [5, 6], .read true]

theorem replies_matched_two : ∃ s : Link Nat,
    run step (Link.init fun _ _ => true) twoCalls = some s ∧ (s.ends true).results = [(0, [5, 6])] ∧
      ((s.ends true).mem 0).values = [2] ∧
      Queue (s.ends true).links (some 1) (some 1) (s.ends true).unanswered := by
  have hr : run step (Link.init fun _ _ => true) twoCalls =
      some ((run step (Link.init fun _ _ => true) twoCalls).get rfl) := rfl
  exact ⟨_, hr, rfl, rfl, (replies_matched hr true).1⟩

end Tornet.Rpc.Pending
