import Tornet.Library.Runs
import Tornet.Library.SortedMap
import Tornet.Peer

/-! `kad_search`: the fibers of one search over the shared queue and the bounded map of results. -/
namespace Tornet.Kad
open Library Runs

/-- The order of `fc::sha1`, that of the numbers. -/
instance : LinearOrder Sha1 where
  le := (· ≤ ·)
  lt := (· < ·)
  le_refl := BitVec.le_refl
  le_trans _ _ _ := BitVec.le_trans
  le_antisymm _ _ := BitVec.le_antisymm
  lt_iff_le_not_ge a b := by
    rw [BitVec.le_def, BitVec.le_def, BitVec.lt_def]
    omega
  le_total a b := Nat.le_total a.toNat b.toNat
  toDecidableLE := inferInstance
  toDecidableEq := inferInstance
  toDecidableLT := inferInstance

/-- `kad_search::status`. -/
inductive Status where
  | idle
  | searching
  | canceled
  | done
  deriving DecidableEq, Repr

/-- Where a `search_thread` is: at the loop condition, in one of the three calls in which it may yield, or
behind the loop. -/
inductive Thread where
  | loop
  | connecting (item : Host)
  | filtering (item : Host) (rtn : Sha1)
  | asking (rtn : Sha1) (limit : Option Sha1)
  | ended
  deriving DecidableEq, Repr

/-- A node for which `connect_to` and `filter` have returned: the record it was found by and its id. -/
structure Visit where
  item : Host
  rtn : Sha1
  deriving DecidableEq, Repr

/-- `kad_search`. No function reads `visits`: it holds the visits that were completed since `start`. -/
structure Search where
  n : UInt32
  p : UInt32
  target : Sha1
  status : Status := .idle
  queue : SortedMap Sha1 Host := .empty
  results : SortedMap Sha1 Host := .empty
  starting : Nat := 0
  threads : List Thread := []
  visits : List Visit := []

namespace Search

/-- The constructor. -/
def create (n p : UInt32) (target : Sha1) : Search := { n := n, p := p, target := target }

def dist (s : Search) (id : Sha1) : Sha1 := id ^^^ s.target

def setThread (s : Search) (t : Nat) (th : Thread) : Search := { s with threads := s.threads.set t th }

/-- `m_search_queue[h.id^m_target] = h`. -/
def enqueue (s : Search) (h : Host) : Search := { s with queue := s.queue.insert (s.dist h.id) h }

/-- The first half of `start`, up to the call of `find_nodes_near`. -/
def start (s : Search) : Search :=
  { s with results := .empty, status := .searching, starting := s.starting + 1, visits := [] }

/-- The second half: fill the queue and start the fibers. -/
def launch (s : Search) (near : List Host) : Search :=
  let s := near.foldl enqueue s
  { s with starting := s.starting - 1, threads := s.threads ++ List.replicate s.p.toNat .loop }

/-- What the remote node is told: the distance of the worst result once there are enough. -/
def limit (s : Search) : Option Sha1 :=
  if s.n.toNat ≤ s.results.size ∧ 0 < s.n.toNat then s.results.lastKey? else none

/-- The node becomes a result, and the worst result goes when there are too many. -/
def addResult (s : Search) (item : Host) (rtn : Sha1) : Search :=
  { s with
    results := s.results.insertBounded s.n.toNat (s.dist rtn) { id := rtn, ep := item.ep }
    visits := ⟨item, rtn⟩ :: s.visits }

/-- From the return of `filter` to the call of `remote_nodes_near`. -/
def visited (s : Search) (t : Nat) (item : Host) (rtn : Sha1) : Search :=
  let s := s.addResult item rtn
  let s := if rtn = s.target then { s with status := .done } else s
  if s.status = .done then s.setThread t .ended else s.setThread t (.asking rtn s.limit)

/-- Whether a reported host goes to the queue; `none` where `--m_current_results.end()` has no entry. -/
def queues (s : Search) (h : Host) : Option Bool :=
  if s.results.contains (s.dist h.id) then some false
  else if s.results.size < s.n.toNat then some true
  else s.results.lastKey?.map fun far => decide (far > h.id)

/-- The loop over the reply. -/
def report (s : Search) : List Host → Option Search
  | [] => some s
  | h :: rest =>
    match s.queues h with
    | none => none
    | some true => (s.enqueue h).report rest
    | some false => s.report rest

end Search

/-- What happens in the node's thread: `start` and its return from `find_nodes_near`, the steps of the
`search_thread` fibers between the calls in which they yield, and `set_status`, which `filter` and
others call. -/
inductive Event where
  | start
  | launch (near : List Host)
  | take (t : Nat)
  | leave (t : Nat)
  | connected (t : Nat) (rtn : Sha1)
  | filtered (t : Nat)
  | failed (t : Nat)
  | replied (t : Nat) (hosts : List Host)
  | setStatus (status : Status)
  deriving DecidableEq, Repr

def Thread.calling : Thread → Bool
  | .connecting _ | .filtering _ _ | .asking _ _ => true
  | .loop | .ended => false

/-- One step; `none` where no fiber is there for it, or the behaviour is undefined. -/
def step (s : Search) : Event → Option Search
  | .start => some s.start
  | .launch near => if 0 < s.starting then some (s.launch near) else none
  | .take t =>
    match s.threads[t]?, s.queue.entries with
    | some .loop, e :: _ =>
      if s.status = .searching then some ({ s with queue := s.queue.eraseFirst }.setThread t (.connecting e.2))
      else none
    | _, _ => none
  | .leave t =>
    match s.threads[t]? with
    | some .loop => if s.queue.entries = [] ∨ s.status ≠ .searching then some (s.setThread t .ended) else none
    | _ => none
  | .connected t rtn =>
    match s.threads[t]? with
    | some (.connecting item) => some (s.setThread t (.filtering item rtn))
    | _ => none
  | .filtered t =>
    match s.threads[t]? with
    | some (.filtering item rtn) => some (s.visited t item rtn)
    | _ => none
  | .failed t =>
    match s.threads[t]? with
    | some th => if th.calling then some (s.setThread t .loop) else none
    | none => none
  | .replied t hosts =>
    match s.threads[t]? with
    | some (.asking _ _) => (s.report hosts).map (·.setThread t .loop)
    | _ => none
  | .setStatus status => some { s with status := status }

inductive Step (s : Search) : Event → Search → Prop
  | start : Step s .start s.start
  | launch (near : List Host) (h : 0 < s.starting) : Step s (.launch near) (s.launch near)
  | take (t : Nat) (e : Sha1 × Host) (rest : List (Sha1 × Host)) (ht : s.threads[t]? = some .loop)
      (hq : s.queue.entries = e :: rest) (hs : s.status = .searching) :
      Step s (.take t) ({ s with queue := s.queue.eraseFirst }.setThread t (.connecting e.2))
  | leave (t : Nat) (ht : s.threads[t]? = some .loop) : Step s (.leave t) (s.setThread t .ended)
  | connected (t : Nat) (rtn : Sha1) (item : Host) (ht : s.threads[t]? = some (.connecting item)) :
      Step s (.connected t rtn) (s.setThread t (.filtering item rtn))
  | filtered (t : Nat) (item : Host) (rtn : Sha1) (ht : s.threads[t]? = some (.filtering item rtn)) :
      Step s (.filtered t) (s.visited t item rtn)
  | failed (t : Nat) (th : Thread) (ht : s.threads[t]? = some th) (hc : th.calling = true) :
      Step s (.failed t) (s.setThread t .loop)
  | replied (t : Nat) (hosts : List Host) (rtn : Sha1) (limit : Option Sha1) (s' : Search)
      (ht : s.threads[t]? = some (.asking rtn limit)) (hr : s.report hosts = some s') :
      Step s (.replied t hosts) (s'.setThread t .loop)
  | setStatus (status : Status) : Step s (.setStatus status) { s with status := status }

theorem step_cases {s s' : Search} {e : Event} (h : step s e = some s') : Step s e s' := by
  cases e with
  | start =>
    cases h
    exact .start
  | launch near =>
    rw [step] at h
    split_ifs at h with hs
    cases h
    exact .launch near hs
  | take t =>
    rw [step] at h
    split at h
    · split_ifs at h with hs
      cases h
      exact .take t _ _ ‹_› ‹_› hs
    · cases h
  | leave t =>
    rw [step] at h
    split at h
    · split_ifs at h
      cases h
      exact .leave t ‹_›
    · cases h
  | connected t rtn =>
    rw [step] at h
    split at h
    · cases h
      exact .connected t rtn _ ‹_›
    · cases h
  | filtered t =>
    rw [step] at h
    split at h
    · cases h
      exact .filtered t _ _ ‹_›
    · cases h
  | failed t =>
    rw [step] at h
    split at h
    · split_ifs at h with hc
      cases h
      exact .failed t _ ‹_› hc
    · cases h
  | replied t hosts =>
    rw [step] at h
    split at h
    · obtain ⟨s₁, hr, rfl⟩ := Option.map_eq_some_iff.mp h
      exact .replied t hosts _ _ s₁ ‹_› hr
    · cases h
  | setStatus status =>
    cases h
    exact .setStatus status

/-! ### What the operations change -/

namespace Search

variable {s s' : Search}

def fill (s : Search) (hosts : List Host) : SortedMap Sha1 Host :=
  hosts.foldl (fun q h => q.insert (s.dist h.id) h) s.queue

private theorem foldl_enqueue (s : Search) (hosts : List Host) :
    hosts.foldl enqueue s = { s with queue := s.fill hosts } := by
  induction hosts generalizing s with
  | nil => rfl
  | cons h rest ih =>
    rw [List.foldl_cons, ih]
    rfl

theorem launch_eq (s : Search) (near : List Host) : s.launch near =
    { s with
      queue := s.fill near
      starting := s.starting - 1
      threads := s.threads ++ List.replicate s.p.toNat .loop } := by
  rw [launch, foldl_enqueue]

/-- The hosts of a reply that are put in the queue. -/
def put (s : Search) (hosts : List Host) : List Host := hosts.filter fun h => s.queues h = some true

/-- While a reply is read the results stay, so each host is judged by them alone. -/
theorem report_eq {hosts : List Host} (h : s.report hosts = some s') : s' = { s with queue := s.fill (s.put hosts) } := by
  induction hosts generalizing s with
  | nil =>
    cases h
    rfl
  | cons host rest ih =>
    rw [report] at h
    split at h
    · cases h
    · next hq =>
      rw [put, List.filter_cons_of_pos (by simp [hq])]
      exact ih h
    · next hq =>
      rw [put, List.filter_cons_of_neg (by simp [hq])]
      exact ih h

theorem visited_fields (s : Search) (t : Nat) (item : Host) (rtn : Sha1) :
    ∃ (status : Status) (th : Thread), (th = .ended ∨ ∃ l, th = .asking rtn l) ∧
      s.visited t item rtn = { (s.addResult item rtn).setThread t th with status := status } := by
  rw [visited]
  split_ifs
  · exact ⟨_, _, .inl rfl, rfl⟩
  · exact ⟨_, _, .inr ⟨_, rfl⟩, rfl⟩
  · exact ⟨_, _, .inl rfl, rfl⟩
  · exact ⟨_, _, .inr ⟨_, rfl⟩, rfl⟩

end Search

/-! ### The results are the nearest of the nodes visited -/

/-- The `n` smallest distances to the target among the nodes `V`. -/
def closest (target : Sha1) (n : Nat) (V : Finset Sha1) : List Sha1 :=
  ((V.image (· ^^^ target)).sort (· ≤ ·)).take n

namespace Search

/-- The nodes for which `connect_to` and `filter` have completed. -/
def completed (s : Search) : Finset Sha1 := (s.visits.map Visit.rtn).toFinset

/-- The map of results has the keys of the nearest nodes, and each key has its node. -/
structure Closest (s : Search) : Prop where
  keys : s.results.keys = closest s.target s.n.toNat s.completed
  named : ∀ e ∈ s.results.entries, e.2.id = e.1 ^^^ s.target

variable {s s' : Search}

theorem closest_create (n p : UInt32) (target : Sha1) : Closest (create n p target) where
  keys := by simp [create, closest, completed, SortedMap.keys]
  named := by simp [create]

theorem Closest.addResult (h : Closest s) (item : Host) (rtn : Sha1) : Closest (s.addResult item rtn) where
  keys := by
    have hins : (s.addResult item rtn).completed = insert rtn s.completed := by
      rw [completed, Search.addResult, List.map_cons, List.toFinset_cons]
      rfl
    rw [hins, closest, Finset.image_insert]
    exact s.results.keys_insertBounded_of h.keys (s.dist rtn) _
  named := by
    intro e he
    rcases s.results.mem_insertBounded he with rfl | he
    · change rtn = rtn ^^^ s.target ^^^ s.target
      rw [BitVec.xor_assoc, BitVec.xor_self, BitVec.xor_zero]
    · exact h.named e he

theorem Closest.step (h : Closest s) {e : Event} (hs : step s e = some s') : Closest s' := by
  cases step_cases hs with
  | start => exact ⟨(closest_create s.n s.p s.target).keys, (closest_create s.n s.p s.target).named⟩
  | launch near _ =>
    rw [launch_eq]
    exact ⟨h.keys, h.named⟩
  | take | leave | connected | failed | setStatus => exact ⟨h.keys, h.named⟩
  | filtered t item rtn _ =>
    obtain ⟨status, th, -, heq⟩ := s.visited_fields t item rtn
    rw [heq]
    exact ⟨(h.addResult item rtn).keys, (h.addResult item rtn).named⟩
  | replied t hosts rtn limit s₁ _ hr =>
    obtain rfl := report_eq hr
    exact ⟨h.keys, h.named⟩

/-- What a search is created with stays. -/
theorem config_step {e : Event} (hs : Kad.step s e = some s') : s'.n = s.n ∧ s'.target = s.target := by
  cases step_cases hs with
  | start | take | leave | connected | failed | setStatus => exact ⟨rfl, rfl⟩
  | launch near _ =>
    rw [launch_eq]
    exact ⟨rfl, rfl⟩
  | filtered t item rtn _ =>
    obtain ⟨status, th, -, heq⟩ := s.visited_fields t item rtn
    rw [heq]
    exact ⟨rfl, rfl⟩
  | replied t hosts rtn limit s₁ _ hr =>
    obtain rfl := report_eq hr
    exact ⟨rfl, rfl⟩

theorem run_closest {n p : UInt32} {target : Sha1} {es : List Event} (hr : run Kad.step (create n p target) es = some s) :
    Closest s ∧ s.n = n ∧ s.target = target := by
  refine invariant_of_step (fun s => Closest s ∧ s.n = n ∧ s.target = target) ?_ ⟨closest_create n p target, rfl, rfl⟩ hr
  rintro s e s' ⟨hc, rfl, rfl⟩ hs
  exact ⟨hc.step hs, config_step hs⟩

theorem length_closest (target : Sha1) (n : Nat) (V : Finset Sha1) : (closest target n V).length = min n V.card := by
  have hinj : Function.Injective fun id : Sha1 => id ^^^ target := fun _ _ h => (BitVec.xor_left_inj target).mp h
  rw [closest, List.length_take, Finset.length_sort, Finset.card_image_of_injective V hinj]

/-- Whatever the fibers do and in which order, the results are the nodes nearest to the target among those for which
`connect_to` and `filter` have completed, as many as were asked for if there are so many, under their distances. -/
theorem results_are_closest {n p : UInt32} {target : Sha1} {es : List Event}
    (hr : run Kad.step (create n p target) es = some s) :
    s.results.entries.map (fun e => (e.1, e.2.id)) =
        (closest target n.toNat s.completed).map (fun d => (d, d ^^^ target)) ∧
      s.results.size = min n.toNat s.completed.card := by
  obtain ⟨hc, rfl, rfl⟩ := run_closest hr
  rw [← length_closest s.target, ← hc.keys, SortedMap.length_keys, SortedMap.keys, List.map_map]
  refine ⟨List.map_congr_left ?_, rfl⟩
  intro e he
  rw [Function.comp_apply, hc.named e he]

/-- Two fibers, of which the second is done with the farther node first. -/
def twoFibers : List Event :=
  [.start, .launch [{ id := 5, ep := {} }, { id := 6, ep := {} }], .take 0, .take 1, .connected 1 6, .connected 0 5, .filtered 1,
    .filtered 0, .replied 1 [{ id := 7, ep := {} }]]

theorem results_are_closest_twoFibers :
    ∃ s, run Kad.step (create 1 2 4) twoFibers = some s ∧ s.completed = {5, 6} ∧
      s.results.entries.map (fun e => (e.1, e.2.id)) = (closest 4 1 s.completed).map (fun d => (d, d ^^^ 4)) ∧
      s.results.size = min 1 s.completed.card := by
  have hr : run Kad.step (create 1 2 4) twoFibers = some ((run Kad.step (create 1 2 4) twoFibers).get rfl) := rfl
  exact ⟨_, hr, by decide, results_are_closest hr⟩

end Search

end Tornet.Kad
