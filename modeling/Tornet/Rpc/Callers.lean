import Tornet.Rpc.Pending

/-! The callers of one `raw_rpc` against messages from anyone: how a promise leaves the list, and how the
`read_loop` ends. -/
namespace Tornet.Rpc.Callers
open Library Runs Linked Pending

variable {β : Type}

/-- A `raw_rpc` until its destructor has run, and the promises on which `set_exception` was called. -/
structure Client (β : Type) where
  rpc : RawRpc β
  failed : List Nat := []
  alive : Bool := true

/-- What happens to it: a call, a message, a channel that is closed or a message that does not unpack, the end of the
method that the loop is in or of the `send` of the reply, an exception out of one of them, and the destructor. -/
inductive Event (β : Type) where
  | invoke (unpack : List UInt8 → Option β)
  | receive (m : RpcMessage)
  | broken
  | returns
  | throws
  | destroy

/-- The loop was left. -/
def Left : Loop → Bool
  | .ended _ => true
  | _ => false

/-- The body of the `read_loop`. A call with an unknown method has its reply sent as well; the messages here belong to
no known call, and the history of results is not used. -/
def dispatch (r : RawRpc β) (m : RpcMessage) : RawRpc β :=
  if m.type = result then r.onResult m 0
  else if m.type = error then (r.popPromise m.id).2
  else if m.type = Pending.notice then if r.methods m.method then { r with loop := .noticing } else r
  else if m.type = call then { r with loop := .calling ⟨m.id, result, m.method, []⟩ 0 }
  else r

namespace Client

def init (methods : UInt32 → Bool) : Client β := { rpc := .init methods }

def setLoop (c : Client β) (loop : Loop) : Client β := { c with rpc := { c.rpc with loop } }

/-- The loop of the destructor over the promises that are left. -/
def failPending : Nat → Client β → Client β
  | 0, c => c
  | fuel + 1, c =>
    match c.rpc.pendingHead with
    | none => c
    | some p => failPending fuel
        { c with failed := c.failed ++ [p], rpc := { c.rpc with pendingHead := (c.rpc.mem p).next } }

/-- `~raw_rpc`: the channel is closed and the loop cancelled and waited for before the promises get their exceptions. -/
def destroy (c : Client β) : Client β := { (c.setLoop (.ended none)).failPending c.rpc.calls with alive := false }

def pending (c : Client β) : List Nat := walk c.rpc.links c.rpc.calls c.rpc.pendingHead

def Completed (c : Client β) (p : Nat) : Prop := (c.rpc.mem p).values ≠ [] ∨ p ∈ c.failed

/-- Every promise that has left the list is completed, and none is in it once the loop has ended. -/
structure Served (c : Client β) : Prop where
  completed : ∀ p < c.rpc.calls, p ∉ c.pending → c.Completed p
  emptied : Left c.rpc.loop = true → c.pending = []

end Client

/-- One event at an object that lives; `none` where the loop is not at that point. -/
def act (c : Client β) : Event β → Option (Client β)
  | .invoke unpack => some { c with rpc := c.rpc.invoke unpack }
  | .receive m =>
    match c.rpc.loop with
    | .idle => some { c with rpc := dispatch c.rpc m }
    | _ => none
  | .broken =>
    match c.rpc.loop with
    | .idle => some (c.setLoop (.ended none))
    | _ => none
  | .returns =>
    match c.rpc.loop with
    | .calling _ _ | .noticing => some (c.setLoop .idle)
    | _ => none
  | .throws =>
    match c.rpc.loop with
    | .calling _ _ | .noticing => some (c.setLoop (.ended none))
    | _ => none
  | .destroy => some c.destroy

def step (c : Client β) (e : Event β) : Option (Client β) := if c.alive then act c e else none

/-- No caller is left by the step: no call is made after the loop, a result for a promise in the list unpacks, an error
is for none of them, and the loop is left with an empty list. -/
def Good (c : Client β) : Event β → Prop
  | .invoke _ => Left c.rpc.loop = false
  | .receive m =>
    (m.type = result → ∀ p ∈ c.pending.find? fun p => (c.rpc.mem p).reqId = m.id, ((c.rpc.mem p).unpack m.data).isSome) ∧
    (m.type = error → ∀ p ∈ c.pending, (c.rpc.mem p).reqId ≠ m.id)
  | .broken | .throws => c.pending = []
  | .returns | .destroy => True

/-- `pop_promise` on a queue: nothing has the id, or the first promise that has it is unlinked. -/
theorem popPromise_cases {r : RawRpc β} {l : List Nat} (h : Queue r.links r.pendingHead r.pendingTail l)
    (hlen : l.length ≤ r.calls) (id : UInt16) :
    (∀ p ∈ l, (r.mem p).reqId ≠ id) ∧ r.popPromise id = (none, r) ∨
    ∃ a x b, l = a ++ x :: b ∧ (∀ y ∈ a, (r.mem y).reqId ≠ id) ∧ (r.mem x).reqId = id ∧
      r.popPromise id = (some x, r.unlinkAt a.getLast? x) := by
  by_cases hid : ∃ x ∈ l, (r.mem x).reqId = id
  · right
    obtain ⟨x, hfind⟩ : ∃ x, l.find? (fun p => (r.mem p).reqId = id) = some x := by
      rw [← Option.isSome_iff_exists, List.find?_isSome]
      simpa using hid
    obtain ⟨hx, a, b, rfl, hmiss⟩ := List.find?_eq_some_iff_append.mp hfind
    have hmiss : ∀ y ∈ a, (r.mem y).reqId ≠ id := by simpa using hmiss
    have hx : (r.mem x).reqId = id := by simpa using hx
    rw [List.length_append] at hlen
    exact ⟨a, x, b, rfl, hmiss, hx, RawRpc.popPromise_eq h hmiss hx (by omega)⟩
  · left
    have hmiss : ∀ p ∈ l, (r.mem p).reqId ≠ id := fun p hp heq => hid ⟨p, hp, heq⟩
    refine ⟨hmiss, ?_⟩
    rw [RawRpc.popPromise, seek_eq_none h.path fun y hy => beq_eq_false_iff_ne.mpr (hmiss y hy)]

namespace Client

variable {c t : Client β} {l l' : List Nat}

/-- While the object lives: the pointers keep the list, and its promises have no value. -/
structure Shape (c : Client β) (l : List Nat) : Prop where
  queue : Queue c.rpc.links c.rpc.pendingHead c.rpc.pendingTail l
  known : ∀ p ∈ l, p < c.rpc.calls
  waiting : ∀ p ∈ l, (c.rpc.mem p).values = []
  failed : c.failed = []

theorem Shape.length_le (h : c.Shape l) : l.length ≤ c.rpc.calls := by
  have hsub := h.queue.nodup.subperm fun p hp => List.mem_range.mpr (h.known p hp)
  simpa using hsub.length_le

theorem Shape.pending_eq (h : c.Shape l) : c.pending = l := h.queue.path.walk_eq h.length_le

theorem Shape.init (methods : UInt32 → Bool) : (init methods : Client β).Shape [] :=
  ⟨.empty _, by simp, by simp, rfl⟩

theorem Served.init (methods : UInt32 → Bool) : (init methods : Client β).Served :=
  ⟨fun p hp => absurd hp (Nat.not_lt_zero p), fun _ => (Shape.init methods).pending_eq⟩

/-- A step serves the callers where the promises that it takes out are completed and nothing is left behind the loop. -/
theorem Served.step_iff (hs : c.Served) (hc : c.Shape l) (ht : t.Shape l')
    (hnew : ∀ p < t.rpc.calls, p < c.rpc.calls ∨ p ∈ l') (hcalls : c.rpc.calls ≤ t.rpc.calls)
    (hcompleted : ∀ p < c.rpc.calls, c.Completed p → t.Completed p) :
    t.Served ↔ (∀ p ∈ l, p ∉ l' → t.Completed p) ∧ (Left t.rpc.loop = true → l' = []) := by
  constructor
  · rintro ⟨hdone, hempty⟩
    rw [ht.pending_eq] at hdone hempty
    exact ⟨fun p hp => hdone p (Nat.lt_of_lt_of_le (hc.known p hp) hcalls), hempty⟩
  · rintro ⟨hleft, hempty⟩
    refine ⟨fun p hp hout => ?_, ht.pending_eq ▸ hempty⟩
    rw [ht.pending_eq] at hout
    by_cases hin : p ∈ l
    · exact hleft p hin hout
    · rcases hnew p hp with hp | hp
      · exact hcompleted p hp (hs.completed p hp (hc.pending_eq ▸ hin))
      · exact absurd hp hout

/-- Where the loop moves and nothing else does, only a loop that is left can hurt. -/
theorem Shape.setLoop (hc : c.Shape l) (loop : Loop) : (c.setLoop loop).Shape l :=
  ⟨hc.queue, hc.known, hc.waiting, hc.failed⟩

theorem Served.setLoop_iff (hs : c.Served) (hc : c.Shape l) (loop : Loop) :
    (c.setLoop loop).Served ↔ (Left loop = true → l = []) := by
  rw [hs.step_iff hc (hc.setLoop loop) (fun _ => .inl) (Nat.le_refl _) (fun _ _ => id)]
  exact and_iff_right fun p hp hout => absurd hp hout

theorem Served.left_iff (hs : c.Served) (hc : c.Shape l) : (c.setLoop (.ended none)).Served ↔ c.pending = [] := by
  rw [hs.setLoop_iff hc, hc.pending_eq]
  exact ⟨fun h => h rfl, fun h _ => h⟩

/-- The call that is made goes to the end of the list. -/
theorem Shape.invoke (hc : c.Shape l) (unpack : List UInt8 → Option β) :
    { c with rpc := c.rpc.invoke unpack }.Shape (l ++ [c.rpc.calls]) := by
  have hre := RawRpc.relinked_enqueuePromise (c.rpc.newPromise unpack) c.rpc.calls
  have hold : ∀ p ∈ l, (c.rpc.newPromise unpack).mem p = c.rpc.mem p := fun p hp =>
    Function.update_of_ne (Nat.ne_of_lt (hc.known p hp)) _ _
  have hfresh : c.rpc.calls ∉ l := fun hp => Nat.lt_irrefl _ (hc.known _ hp)
  refine ⟨?_, ?_, ?_, hc.failed⟩
  · apply RawRpc.queue_enqueuePromise _ hfresh
    exact hc.queue.congr fun p hp => congrArg Promise.next (hold p hp)
  · intro p hp
    rw [RawRpc.invoke, hre.calls]
    rcases List.mem_append.mp hp with hp | hp
    · exact Nat.lt_succ_of_lt (hc.known p hp)
    · exact (List.mem_singleton.mp hp).symm ▸ Nat.lt_succ_self _
  · intro p hp
    rw [RawRpc.invoke, hre.values]
    rcases List.mem_append.mp hp with hp | hp
    · rw [hold p hp]
      exact hc.waiting p hp
    · rw [List.mem_singleton.mp hp]
      simp [RawRpc.newPromise]

theorem Served.invoke_iff (hs : c.Served) (hc : c.Shape l) (unpack : List UInt8 → Option β) :
    { c with rpc := c.rpc.invoke unpack }.Served ↔ Left c.rpc.loop = false := by
  have hre := RawRpc.relinked_enqueuePromise (c.rpc.newPromise unpack) c.rpc.calls
  have hcalls : (c.rpc.invoke unpack).calls = c.rpc.calls + 1 := hre.calls
  have hloop : (c.rpc.invoke unpack).loop = c.rpc.loop := hre.loop
  rw [hs.step_iff hc (hc.invoke unpack), hloop]
  · simp +contextual
  · intro p hp
    rw [hcalls] at hp
    by_cases hlt : p < c.rpc.calls
    · exact .inl hlt
    · right
      rw [show p = c.rpc.calls by omega]
      exact List.mem_append_right l List.mem_cons_self
  · rw [hcalls]
    exact Nat.le_succ _
  · intro p hp hdone
    apply hdone.imp_left
    intro hv
    show ((c.rpc.invoke unpack).mem p).values ≠ []
    rw [RawRpc.invoke, hre.values, RawRpc.newPromise]
    simpa [Function.update_of_ne (Nat.ne_of_lt hp)] using hv

section
variable {r : RawRpc β} {a b : List Nat} {x : Nat}

/-- A promise that was unlinked is out of the list. -/
theorem Shape.unlink (hc : c.Shape (a ++ x :: b)) : { c with rpc := c.rpc.unlinkAt a.getLast? x }.Shape (a ++ b) := by
  have hre := RawRpc.relinked_unlinkAt c.rpc a.getLast? x
  have hsub : ∀ p ∈ a ++ b, p ∈ a ++ x :: b := by
    intro p hp
    simp only [List.mem_append, List.mem_cons] at hp ⊢
    tauto
  refine ⟨RawRpc.queue_unlinkAt hc.queue, ?_, ?_, hc.failed⟩
  · intro p hp
    rw [hre.calls]
    exact hc.known p (hsub p hp)
  · intro p hp
    rw [hre.values]
    exact hc.waiting p (hsub p hp)

/-- Of the promises in the list, the one that is taken out has to be completed. -/
theorem Served.popped_iff (hs : c.Served) (hc : c.Shape (a ++ x :: b)) (ht : t.Shape (a ++ b))
    (hcalls : t.rpc.calls = c.rpc.calls) (hcompleted : ∀ p, c.Completed p → t.Completed p) :
    t.Served ↔ t.Completed x ∧ (Left t.rpc.loop = true → a ++ b = []) := by
  have hx : x ∉ a ++ b := (List.nodup_cons.mp (List.nodup_middle.mp hc.queue.nodup)).1
  rw [hs.step_iff hc ht (fun p hp => .inl (hcalls ▸ hp)) (Nat.le_of_eq hcalls.symm) fun p _ => hcompleted p]
  apply and_congr_left
  intro _
  constructor
  · intro h
    exact h x (List.mem_append_right a List.mem_cons_self) hx
  · intro h p hp hout
    have hpx : p = x := by
      simp only [List.mem_append, List.mem_cons, not_or] at hp hout
      tauto
    exact hpx ▸ h

theorem completed_relinked {failed : List Nat} {alive : Bool} {s : RawRpc β} (hre : RawRpc.Relinked r s) (p : Nat) :
    (Client.mk s failed alive).Completed p ↔ (Client.mk r failed alive).Completed p := by
  show (s.mem p).values ≠ [] ∨ _ ↔ (r.mem p).values ≠ [] ∨ _
  rw [hre.values]

/-- A promise of the list is not completed by being unlinked. -/
theorem Shape.not_completed (hc : c.Shape l) {p : Nat} (hp : p ∈ l) : ¬ c.Completed p := by
  rintro (hv | hf)
  · exact hv (hc.waiting p hp)
  · rw [hc.failed] at hf
    cases hf

/-- An error message takes a promise out and completes nothing. -/
theorem served_error (hs : c.Served) (hc : c.Shape l) (id : UInt16) :
    (∃ l', { c with rpc := (c.rpc.popPromise id).2 }.Shape l') ∧
      ({ c with rpc := (c.rpc.popPromise id).2 }.Served ↔ ∀ p ∈ l, (c.rpc.mem p).reqId ≠ id) := by
  rcases popPromise_cases hc.queue hc.length_le id with ⟨hmiss, hpop⟩ | ⟨a, x, b, rfl, -, hid, hpop⟩
  · rw [hpop]
    exact ⟨⟨l, hc⟩, fun _ => hmiss, fun _ => hs⟩
  · rw [hpop]
    have hre := RawRpc.relinked_unlinkAt c.rpc a.getLast? x
    have hx : x ∈ a ++ x :: b := List.mem_append_right a List.mem_cons_self
    refine ⟨⟨a ++ b, hc.unlink⟩, ?_⟩
    rw [hs.popped_iff hc hc.unlink hre.calls fun p => (completed_relinked hre p).mpr]
    refine iff_of_false ?_ fun h => h x hx hid
    rintro ⟨hdone, -⟩
    exact hc.not_completed hx ((completed_relinked hre x).mp hdone)

/-- The value of a promise outside the list. -/
theorem Shape.setValues (hc : c.Shape l) (hx : x ∉ l) (vs : List β) :
    { c with rpc := { c.rpc with mem := Function.update c.rpc.mem x { c.rpc.mem x with values := vs } } }.Shape l := by
  have hne : ∀ p ∈ l, p ≠ x := fun p hp => ne_of_mem_of_not_mem hp hx
  refine ⟨hc.queue.congr ?_, hc.known, ?_, hc.failed⟩
  · intro p hp
    simp [RawRpc.links, Function.update_of_ne (hne p hp)]
  · intro p hp
    simp only [Function.update_of_ne (hne p hp)]
    exact hc.waiting p hp

/-- `handle_result` completes the promise that was unlinked, where the data unpacks. -/
theorem served_handleResult (hs : c.Served) (hc : c.Shape (a ++ x :: b)) (hidle : c.rpc.loop = .idle)
    (data : List UInt8)
    (hr : r = ((c.rpc.unlinkAt a.getLast? x).handleResult x data).getD
      { c.rpc.unlinkAt a.getLast? x with loop := .ended none }) :
    { c with rpc := r }.Shape (a ++ b) ∧ ({ c with rpc := r }.Served ↔ ((c.rpc.mem x).unpack data).isSome) := by
  have hre := RawRpc.relinked_unlinkAt c.rpc a.getLast? x
  have hx : x ∈ a ++ x :: b := List.mem_append_right a List.mem_cons_self
  have hout : x ∉ a ++ b := (List.nodup_cons.mp (List.nodup_middle.mp hc.queue.nodup)).1
  rw [RawRpc.handleResult, hre.unpack] at hr
  cases hv : (c.rpc.mem x).unpack data with
  | none =>
    rw [hv, Option.map_none, Option.getD_none] at hr
    subst hr
    have ht : { c with rpc := { c.rpc.unlinkAt a.getLast? x with loop := .ended none } }.Shape (a ++ b) :=
      hc.unlink.setLoop (.ended none)
    refine ⟨ht, ?_⟩
    have hdone : ∀ p, _ ↔ c.Completed p := completed_relinked hre
    rw [hs.popped_iff hc ht hre.calls fun p => (hdone p).mpr]
    refine iff_of_false ?_ (by simp)
    rintro ⟨h, -⟩
    exact hc.not_completed hx ((hdone x).mp h)
  | some v =>
    rw [hv] at hr
    subst hr
    have ht := hc.unlink.setValues hout ([] ++ [v])
    have hempty : ((c.rpc.unlinkAt a.getLast? x).mem x).values = [] := by
      rw [hre.values]
      exact hc.waiting x hx
    simp only [Option.map_some, Option.getD_some, hempty]
    refine ⟨ht, ?_⟩
    rw [hs.popped_iff hc ht hre.calls]
    · refine iff_of_true ⟨.inl ?_, ?_⟩ rfl
      · simp
      · intro hleft
        rw [show (c.rpc.unlinkAt a.getLast? x).loop = .idle from hre.loop.trans hidle] at hleft
        cases hleft
    · intro p hdone
      have hne : p ≠ x := by
        rintro rfl
        exact hc.not_completed hx hdone
      apply ((completed_relinked hre p).mpr hdone).imp_left
      intro hval
      simpa [Function.update_of_ne hne] using hval

/-- A result takes the first promise with the id out, and completes it where the data unpacks. -/
theorem served_result (hs : c.Served) (hc : c.Shape l) (hidle : c.rpc.loop = .idle) (m : RpcMessage) :
    (∃ l', { c with rpc := c.rpc.onResult m 0 }.Shape l') ∧
      ({ c with rpc := c.rpc.onResult m 0 }.Served ↔
        ∀ p ∈ l.find? fun p => (c.rpc.mem p).reqId = m.id, ((c.rpc.mem p).unpack m.data).isSome) := by
  let d : Client β := { c with rpc := { c.rpc with results := c.rpc.results ++ [(0, m.data)] } }
  have hd : d.Shape l := ⟨hc.queue, hc.known, hc.waiting, hc.failed⟩
  have hds : d.Served := ⟨hs.completed, hs.emptied⟩
  rcases popPromise_cases hd.queue hd.length_le m.id with ⟨hmiss, hpop⟩ | ⟨a, x, b, rfl, hmiss, hid, hpop⟩
  · have hnone : l.find? (fun p => (c.rpc.mem p).reqId = m.id) = none := by
      rw [List.find?_eq_none]
      simpa using hmiss
    have heq : c.rpc.onResult m 0 = d.rpc := by
      rw [RawRpc.onResult]
      simp only [d] at hpop ⊢
      rw [hpop]
    rw [heq, hnone]
    exact ⟨⟨l, hd⟩, fun _ p hp => (by cases hp), fun _ => hds⟩
  · have hfind : (a ++ x :: b).find? (fun p => (c.rpc.mem p).reqId = m.id) = some x := by
      rw [List.find?_eq_some_iff_append]
      exact ⟨by simpa using hid, a, b, rfl, by simpa using hmiss⟩
    have heq : c.rpc.onResult m 0 = ((d.rpc.unlinkAt a.getLast? x).handleResult x m.data).getD
        { d.rpc.unlinkAt a.getLast? x with loop := .ended none } := by
      rw [RawRpc.onResult]
      simp only [d] at hpop ⊢
      rw [hpop]
    obtain ⟨hshape, hserved⟩ := served_handleResult hds hd hidle m.data heq
    refine ⟨⟨a ++ b, hshape⟩, ?_⟩
    rw [hfind]
    simpa using hserved

/-- The destructor completes what is left. -/
theorem failPending_eq {fuel : Nat} (hpath : Path c.rpc.links c.rpc.pendingHead l none) (hfuel : l.length ≤ fuel) :
    failPending fuel c = { c with failed := c.failed ++ l, rpc := { c.rpc with pendingHead := none } } := by
  induction l generalizing c fuel with
  | nil =>
    have hhead : c.rpc.pendingHead = none := hpath
    have hself : c = { c with failed := c.failed ++ [], rpc := { c.rpc with pendingHead := none } } := by
      rw [List.append_nil, ← hhead]
    cases fuel with
    | zero => exact hself
    | succ fuel =>
      rw [failPending, hhead]
      exact hself
  | cons x l ih =>
    obtain ⟨hhead, hrest⟩ := hpath
    cases fuel with
    | zero => cases hfuel
    | succ fuel =>
      rw [failPending, hhead]
      simp only
      rw [ih hrest (Nat.le_of_succ_le_succ hfuel)]
      simp

theorem Served.destroy (hs : c.Served) (hc : c.Shape l) : c.destroy.Served := by
  have heq := failPending_eq (hc.setLoop (.ended none)).queue.path hc.length_le
  rw [Client.destroy, heq]
  have hempty : walk c.rpc.links c.rpc.calls none = [] := by cases c.rpc.calls <;> rfl
  refine ⟨fun p hp _ => ?_, fun _ => hempty⟩
  by_cases hin : p ∈ l
  · exact .inr (List.mem_append_right _ hin)
  · rcases hs.completed p hp (hc.pending_eq ▸ hin) with hv | hf
    · exact .inl hv
    · exact .inr (List.mem_append_left _ hf)

end

/-- The lists and pointers fit while the object lives, and the callers are served. -/
structure Inv (c : Client β) : Prop where
  shape : c.alive = true → ∃ l, c.Shape l
  served : c.Served

end Client

open Client

private theorem served_receive {c : Client β} {l : List Nat} (hs : c.Served) (hc : c.Shape l) (hidle : c.rpc.loop = .idle)
    (m : RpcMessage) :
    (∃ l', { c with rpc := dispatch c.rpc m }.Shape l') ∧
      ({ c with rpc := dispatch c.rpc m }.Served ↔ Good c (.receive m)) := by
  rw [dispatch, Good, hc.pending_eq]
  by_cases hres : m.type = result
  · have herr : m.type ≠ error := by rw [hres]; decide
    obtain ⟨hshape, hserved⟩ := served_result hs hc hidle m
    rw [if_pos hres]
    exact ⟨hshape, hserved.trans ⟨fun h => ⟨fun _ => h, fun h' => absurd h' herr⟩, fun h => h.1 hres⟩⟩
  rw [if_neg hres]
  by_cases herr : m.type = error
  · obtain ⟨hshape, hserved⟩ := served_error hs hc m.id
    rw [if_pos herr]
    exact ⟨hshape, hserved.trans ⟨fun h => ⟨fun h' => absurd h' hres, fun _ => h⟩, fun h => h.2 herr⟩⟩
  rw [if_neg herr]
  -- the other messages move at most the loop, and not out of it
  obtain ⟨loop, hleft, heq⟩ : ∃ loop, Left loop = false ∧
      (if m.type = Pending.notice then if c.rpc.methods m.method then { c.rpc with loop := .noticing } else c.rpc
        else if m.type = call then { c.rpc with loop := .calling ⟨m.id, result, m.method, []⟩ 0 }
        else c.rpc) = { c.rpc with loop := loop } := by
    have hstay : c.rpc = { c.rpc with loop := .idle } := by rw [← hidle]
    split_ifs
    · exact ⟨.noticing, rfl, rfl⟩
    · exact ⟨.idle, rfl, hstay⟩
    · exact ⟨.calling _ 0, rfl, rfl⟩
    · exact ⟨.idle, rfl, hstay⟩
  rw [heq]
  have hserved : (c.setLoop loop).Served := by
    rw [hs.setLoop_iff hc, hleft]
    intro h
    cases h
  exact ⟨⟨l, hc.setLoop loop⟩, iff_of_true hserved ⟨fun h => absurd h hres, fun h => absurd h herr⟩⟩

/-- What one step does: the pointers still fit, and the callers are served where the step is good. -/
theorem step_served {c t : Client β} {l : List Nat} {e : Event β} (hs : c.Served) (hc : c.Shape l)
    (ht : step c e = some t) : (t.alive = true → ∃ l', t.Shape l') ∧ (t.Served ↔ Good c e) := by
  have ht : act c e = some t := by
    rw [step] at ht
    split_ifs at ht
    exact ht
  cases e with
  | invoke unpack =>
    cases ht
    exact ⟨fun _ => ⟨_, hc.invoke unpack⟩, hs.invoke_iff hc unpack⟩
  | receive m =>
    simp only [act] at ht
    split at ht
    · rename_i hidle
      cases ht
      obtain ⟨hshape, hserved⟩ := served_receive hs hc hidle m
      exact ⟨fun _ => hshape, hserved⟩
    · cases ht
  | broken =>
    simp only [act] at ht
    split at ht
    · cases ht
      exact ⟨fun _ => ⟨l, hc.setLoop _⟩, hs.left_iff hc⟩
    · cases ht
  | returns =>
    simp only [act] at ht
    split at ht
    all_goals cases ht
    all_goals exact ⟨fun _ => ⟨l, hc.setLoop _⟩, iff_of_true ((hs.setLoop_iff hc _).mpr fun h => by cases h) trivial⟩
  | throws =>
    simp only [act] at ht
    split at ht
    all_goals cases ht
    all_goals exact ⟨fun _ => ⟨l, hc.setLoop _⟩, hs.left_iff hc⟩
  | destroy =>
    cases ht
    refine ⟨fun h => (by cases h), iff_of_true (hs.destroy hc) trivial⟩

/-- Along every run, the callers are served in every state if and only if every step is good. -/
theorem callers_served_iff {methods : UInt32 → Bool} {es : List (Event β)} {c : Client β}
    (hr : run step (Client.init methods) es = some c) :
    Always step (fun _ _ t => t.Served) (Client.init methods) es ↔ Guarded step Good (Client.init methods) es := by
  have hshape : ∀ {s t : Client β} {e}, s.Inv → step s e = some t → ∃ l, s.Shape l := by
    intro s t e hinv ht
    apply hinv.shape
    by_contra hdead
    rw [step, if_neg hdead] at ht
    cases ht
  apply always_iff_guarded Inv _ _ ⟨fun _ => ⟨[], .init methods⟩, .init methods⟩ hr
  · intro s e t hinv hgood ht
    obtain ⟨l, hl⟩ := hshape hinv ht
    obtain ⟨halive, hserved⟩ := step_served hinv.served hl ht
    exact ⟨hserved.mpr hgood, halive, hserved.mpr hgood⟩
  · intro s e t hinv hR ht
    obtain ⟨l, hl⟩ := hshape hinv ht
    exact (step_served hinv.served hl ht).2.mp hR

/-- A call and its result, and then the end of the channel. -/
def answeredCall : List (Event Nat) :=
  [.invoke fun d => some d.length, .receive ⟨1, result, 7, [5, 6]⟩, .broken]

theorem callers_served_answered : ∃ c : Client Nat, run step (Client.init fun _ => true) answeredCall = some c ∧
    Always step (fun _ _ t => t.Served) (Client.init fun _ => true) answeredCall := by
  have hr : run step (Client.init fun _ => true) answeredCall =
      some ((run step (Client.init fun _ => true) answeredCall).get rfl) := rfl
  refine ⟨_, hr, (callers_served_iff hr).mpr ⟨rfl, ?_⟩⟩
  rintro t ⟨⟩
  refine ⟨⟨fun _ p hp => ?_, fun h => absurd h (by decide)⟩, ?_⟩
  · obtain rfl : 0 = p := Option.some.inj hp
    rfl
  · rintro t ⟨⟩
    exact ⟨rfl, fun t _ => trivial⟩

/-- An error message takes the only promise out of the list and completes nothing; and a channel that is closed during the
call leaves it in the list. -/
theorem callers_left :
    (∃ c : Client Nat, run step (Client.init fun _ => true)
        [.invoke fun d => some d.length, .receive ⟨1, error, 7, []⟩] = some c ∧
      0 < c.rpc.calls ∧ 0 ∉ c.pending ∧ ¬ c.Completed 0) ∧
    ∃ c : Client Nat, run step (Client.init fun _ => true) [.invoke fun d => some d.length, .broken] = some c ∧
      Left c.rpc.loop = true ∧ c.pending = [0] ∧ ¬ c.Completed 0 := by
  refine ⟨⟨_, rfl, Nat.one_pos, ?_, ?_⟩, _, rfl, rfl, rfl, ?_⟩
  · exact List.not_mem_nil
  · rintro (hv | hf)
    · exact hv rfl
    · cases hf
  · rintro (hv | hf)
    · exact hv rfl
    · cases hf

end Tornet.Rpc.Callers
