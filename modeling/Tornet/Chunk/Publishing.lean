import Tornet.Library.Runs
import Tornet.Chunk.Service

/-! The publishing loops of `chunk_service`: fibers that test one flag at the top of each turn, and
calls that set it. -/
namespace Tornet.Chunk.Publishing
open Library Runs Cafs

/-- Where a `publish_loop` fiber is: before the test of the flag (or not yet started), in the sleep
until the update is due, in the search, in the store on another node, in the store of the record,
in the sleep when there is nothing to publish, returned, or left by an exception. -/
inductive Point where
  | top
  | sleeping (cid : Sha1) (next : PublishRecord)
  | searching (cid : Sha1) (next : PublishRecord)
  | storing (cid : Sha1) (next : PublishRecord)
  | recording (cid : Sha1) (next : PublishRecord)
  | idling
  | finished
  | failed
  deriving DecidableEq, Repr

/-- What a fiber gets when it goes on: the time and the answer of `fetch_next`, the end of a sleep or
of a store, the number of hosts found and whether a node without the chunk is among the results, or
the answer of that node. -/
inductive Input where
  | fetched (now : UInt64) (found : Option (Sha1 × PublishRecord))
  | awake
  | searched (now : UInt64) (hosts : Nat) (storeOnNode : Bool)
  | stored (now : UInt64) (result : Result)
  deriving DecidableEq, Repr

def dueAgain (r : PublishRecord) (now : UInt64) : PublishRecord :=
  { r with nextUpdate := now + 30 * 1000 * 1000 }

/-- `publish_loop` from one point at which it can be left to the next; `none` where the fiber does
not wait for that. -/
def publishLoop (publishing : Bool) : Point → Input → Option Point
  | .top, .fetched now found =>
    if publishing then
      match found with
      | none => some .idling
      | some (cid, next) =>
        -- the difference is unsigned
        some (if 0 < next.nextUpdate - now then .sleeping cid next else .searching cid next)
    else some .finished
  | .sleeping cid next, .awake => some (.searching cid next)
  | .searching cid next, .searched now hosts storeOnNode =>
    let found := { next with hostCount := UInt32.ofNat hosts }
    some (if hosts < next.desiredHostCount.toNat ∧ storeOnNode then .storing cid found
      else .recording cid (dueAgain found now))
  | .storing cid next, .stored now result =>
    let kept := if result = .ok then { next with hostCount := next.hostCount + 1 } else next
    some (.recording cid (dueAgain kept now))
  | .recording _ _, .awake => some .top
  | .idling, .awake => some .top
  | _, _ => none

/-- The fiber has not returned and was not left by an exception. -/
def Point.live : Point → Bool
  | .finished | .failed => false
  | _ => true

/-- The calls of an iteration that can throw: those of the search, of `get_client`, `fetch_chunk` and
`store().wait()`, and of the two databases. -/
def Point.mayThrow : Point → Bool
  | .top | .searching _ _ | .storing _ _ | .recording _ _ => true
  | .sleeping _ _ | .idling | .finished | .failed => false

/-- `_publishing`, and every fiber that was ever started. -/
structure State where
  publishing : Bool := false
  loops : List Point := []
  deriving DecidableEq, Repr

/-- A call of `enable_publishing`, a fiber that goes on, or an exception in one. -/
inductive Event where
  | enable (state : Bool)
  | advance (i : Nat) (input : Input)
  | throws (i : Nat)
  deriving DecidableEq, Repr

/-- `enable_publishing`. -/
def enablePublishing (s : State) (state : Bool) : State :=
  if s.publishing ≠ state then
    { publishing := state, loops := if state then s.loops ++ [.top] else s.loops }
  else s

/-- One event; `none` where the fiber is not at that point. An exception at the top is one of
`fetch_next`, inside the loop. -/
def step (s : State) : Event → Option State
  | .enable state => some (enablePublishing s state)
  | .advance i input =>
    (s.loops[i]?.bind (publishLoop s.publishing · input)).map fun p => { s with loops := s.loops.set i p }
  | .throws i =>
    match s.loops[i]? with
    | some p =>
      if p.mayThrow ∧ (p = .top → s.publishing) then some { s with loops := s.loops.set i .failed } else none
    | none => none

def State.live (s : State) : Nat := s.loops.countP Point.live

/-- At most one fiber is live, and one is while `is_publishing()`. -/
def State.Single (s : State) : Prop := s.live ≤ 1 ∧ (s.publishing = true → s.live = 1)

/-- Publishing is turned on only when the old fiber has ended, and no iteration throws while it is on. -/
def calm (s : State) : Event → Prop
  | .enable state => state = true → s.publishing = true ∨ s.live = 0
  | .advance _ _ => True
  | .throws _ => s.publishing = false

instance (s : State) : Decidable s.Single :=
  inferInstanceAs (Decidable (s.live ≤ 1 ∧ (s.publishing = true → s.live = 1)))

instance (s : State) : (e : Event) → Decidable (calm s e)
  | .enable state => inferInstanceAs (Decidable (state = true → s.publishing = true ∨ s.live = 0))
  | .advance _ _ => inferInstanceAs (Decidable True)
  | .throws _ => inferInstanceAs (Decidable (s.publishing = false))

private theorem live_set {s : State} {i : Nat} {p q : Point} (hi : s.loops[i]? = some p) (hp : p.live = true) :
    { s with loops := s.loops.set i q }.live + 1 = s.live + (if q.live then 1 else 0) := by
  obtain ⟨hlt, hget⟩ := List.getElem?_eq_some_iff.mp hi
  have hpos : 0 < s.loops.countP Point.live :=
    List.countP_pos_iff.mpr ⟨p, List.mem_of_getElem? hi, hp⟩
  simp only [State.live, List.countP_set hlt, hget, hp, if_true]
  omega

/-- A fiber goes on from a live point, and stops only where the flag is off. -/
theorem live_publishLoop {publishing : Bool} {p q : Point} {input : Input}
    (h : publishLoop publishing p input = some q) :
    p.live = true ∧ (q.live = false → publishing = false) := by
  revert h
  rw [publishLoop.eq_def]
  split
  · split_ifs with hpub
    · split
      · rintro ⟨⟩
        exact ⟨rfl, by simp [Point.live]⟩
      · rintro ⟨⟩
        refine ⟨rfl, fun hq => ?_⟩
        split_ifs at hq <;> cases hq
    · rintro ⟨⟩
      exact ⟨rfl, fun _ => by simpa using hpub⟩
  · rintro ⟨⟩
    exact ⟨rfl, by simp [Point.live]⟩
  · rintro ⟨⟩
    refine ⟨rfl, fun hq => ?_⟩
    split_ifs at hq <;> cases hq
  · rintro ⟨⟩
    exact ⟨rfl, by simp [Point.live]⟩
  · rintro ⟨⟩
    exact ⟨rfl, by simp [Point.live]⟩
  · rintro ⟨⟩
    exact ⟨rfl, by simp [Point.live]⟩
  · rintro ⟨⟩

private theorem live_of_mayThrow {p : Point} (h : p.mayThrow = true) : p.live = true := by
  cases p <;> simp_all [Point.mayThrow, Point.live]

/-- What each event does to the flag and to the number of live fibers. -/
inductive Takes (s : State) : Event → State → Prop
  | enabled (t : State) : s.publishing = false → t.publishing = true → t.live = s.live + 1 →
      Takes s (.enable true) t
  | disabled (t : State) : t.publishing = false → t.live = s.live → Takes s (.enable false) t
  | already : s.publishing = true → Takes s (.enable true) s
  | advanced (i : Nat) (input : Input) (t : State) : t.publishing = s.publishing →
      (t.live = s.live ∨ s.publishing = false ∧ t.live + 1 = s.live) → Takes s (.advance i input) t
  | thrown (i : Nat) (t : State) : t.publishing = s.publishing → t.live + 1 = s.live → Takes s (.throws i) t

theorem takes_of_step {s t : State} {e : Event} (h : step s e = some t) : Takes s e t := by
  cases e with
  | enable state =>
    simp only [step, Option.some.injEq] at h
    subst h
    cases state with
    | true =>
      by_cases hp : s.publishing = true
      · simp only [enablePublishing, hp, ne_eq, not_true_eq_false, if_false]
        exact .already hp
      · have hf : s.publishing = false := by simpa using hp
        refine .enabled _ hf ?_ ?_ <;> simp [enablePublishing, hf, State.live, Point.live]
    | false =>
      by_cases hp : s.publishing = true <;> refine .disabled _ ?_ ?_ <;>
        simp_all [enablePublishing, State.live]
  | advance i input =>
    obtain ⟨q, hq, rfl⟩ := Option.map_eq_some_iff.mp h
    obtain ⟨p, hp, hloop⟩ := Option.bind_eq_some_iff.mp hq
    obtain ⟨hlive, hend⟩ := live_publishLoop hloop
    have hset := live_set (q := q) hp hlive
    refine .advanced i input _ rfl ?_
    cases hl : q.live with
    | true =>
      left
      simpa [hl] using hset
    | false =>
      right
      exact ⟨hend hl, by simpa [hl] using hset⟩
  | throws i =>
    simp only [step] at h
    split at h
    · rename_i p hp
      split_ifs at h with hc
      cases h
      have hset := live_set (q := .failed) hp (live_of_mayThrow hc.1)
      exact .thrown i _ rfl (by simpa [Point.live] using hset)
    · cases h

theorem single_step {s t : State} {e : Event} (h : s.Single) (hc : calm s e) (ht : step s e = some t) :
    t.Single := by
  obtain ⟨hle, hone⟩ := h
  cases takes_of_step ht with
  | enabled _ hs hp hl =>
    have hzero : s.live = 0 := by simpa [hs] using hc rfl
    exact ⟨by omega, fun _ => by omega⟩
  | disabled _ hp hl => exact ⟨hl ▸ hle, fun h => by simp [hp] at h⟩
  | already hp => exact ⟨hle, hone⟩
  | advanced i input _ hp hl =>
    rw [State.Single, hp]
    rcases hl with hl | ⟨hf, hl⟩
    · exact ⟨hl ▸ hle, fun h => hl ▸ hone h⟩
    · exact ⟨by omega, fun h => by simp [hf] at h⟩
  | thrown i _ hp hl => exact ⟨by omega, fun h => by simp [hp, show s.publishing = false from hc] at h⟩

/-- A step that does not meet the condition leaves two live fibers, or none while the flag is on. -/
theorem calm_of_single {s t : State} {e : Event} (h : s.Single) (ht : step s e = some t)
    (hsingle : t.Single) : calm s e := by
  cases takes_of_step ht with
  | enabled _ hs hp hl =>
    intro _
    have := hsingle.1
    right
    omega
  | disabled _ hp hl => exact fun h => by cases h
  | already hp => exact fun _ => .inl hp
  | advanced i input _ hp hl => trivial
  | thrown i _ hp hl =>
    by_contra hpub
    have hon : s.publishing = true := by simpa [calm] using hpub
    have hs := h.2 hon
    have ht := hsingle.2 (hp.trans hon)
    omega

/-- In every state of a run at most one `publish_loop` is live, and one is while publishing is on, if
and only if publishing is turned on only when no loop is live and nothing throws while it is on. -/
theorem single_iff_calm {es : List Event} {s : State} (hr : run step {} es = some s) :
    Always step (fun _ _ t => t.Single) {} es ↔ Guarded step calm {} es := by
  apply always_iff_guarded State.Single ?_ ?_ ?_ hr
  · exact fun s e t h hc ht => ⟨single_step h hc ht, single_step h hc ht⟩
  · exact fun s e t h hsingle ht => calm_of_single h ht hsingle
  · exact ⟨Nat.zero_le 1, fun h => by cases h⟩

/-- Off and on again, after the old loop has seen that it is off. -/
theorem single_restart :
    Always step (fun _ _ t => t.Single) {}
      [.enable true, .advance 0 (.fetched 5 none), .enable false, .advance 0 .awake,
        .advance 0 (.fetched 9 none), .enable true] :=
  (single_iff_calm (s := ⟨true, [.finished, .top]⟩) (by decide)).mpr (by decide)

/-- Off and on again while the loop sleeps leaves two loops; an exception leaves none. -/
theorem toggled_and_thrown :
    (run step {} [.enable true, .advance 0 (.fetched 5 none), .enable false, .enable true] =
        some ⟨true, [.idling, .top]⟩ ∧ ¬ State.Single ⟨true, [.idling, .top]⟩) ∧
      run step {} [.enable true, .advance 0 (.fetched 5 (some (0, { nextUpdate := 5, desiredHostCount := 1 }))),
          .advance 0 (.searched 6 0 true), .throws 0] = some ⟨true, [.failed]⟩ ∧
        ¬ State.Single ⟨true, [.failed]⟩ := by
  decide

end Tornet.Chunk.Publishing
