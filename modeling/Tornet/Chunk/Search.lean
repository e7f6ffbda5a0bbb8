import Tornet.Chunk.Service
import Tornet.Kad.Termination
import Tornet.Library.Indexed
import Tornet.Library.Xor

/-! `chunk_search`: a `kad_search` whose `filter` asks every node for the chunk, and stops the search when enough nodes
host it. -/
namespace Tornet.Chunk
open Library Runs Xor
open Kad (Status Thread)

/-- `chunk_search`, without the averages of the query rates. No function reads `answers`: it holds the nodes that have
answered, and how. -/
structure ChunkSearch where
  kad : Kad.Search
  deadendCount : UInt32 := 0
  chunkSize : UInt32 := 0
  hostResults : SortedMap Sha1 Sha1 := .empty
  answers : List (Sha1 × Result) := []

namespace ChunkSearch

/-- What `filter` reads of a `fetch_response`, but for the rate of queries. -/
structure FetchReply where
  result : Result := .unknown
  totalSize : UInt32 := 0
  deadendCount : UInt32 := 0
  deriving DecidableEq, Repr

/-- The constructor. -/
def create (n p : UInt32) (target : Sha1) : ChunkSearch := { kad := .create n p target }

/-- `m_host_results[id^target()] = id`, of a node that has the chunk. -/
def hostsWith (s : ChunkSearch) (id : Sha1) (fr : FetchReply) : SortedMap Sha1 Sha1 :=
  if fr.result = .available then s.hostResults.insert (id ^^^ s.kad.target) id else s.hostResults

/-- `chunk_search::filter` from the reply on. -/
def filter (s : ChunkSearch) (id : Sha1) (fr : FetchReply) : ChunkSearch where
  kad :=
    if fr.result = .available ∧ s.kad.n.toNat ≤ (s.hostsWith id fr).size then { s.kad with status := .done } else s.kad
  deadendCount := s.deadendCount + fr.deadendCount
  chunkSize := if fr.totalSize ≠ 0 then fr.totalSize else s.chunkSize
  hostResults := s.hostsWith id fr
  answers := (id, fr.result) :: s.answers

/-- A step of the search in which no `filter` returns, or the reply for which one waits. -/
inductive Event where
  | kad (e : Kad.Event)
  | filtered (t : Nat) (fr : FetchReply)
  deriving DecidableEq, Repr

def step (s : ChunkSearch) : Event → Option ChunkSearch
  | .kad (.filtered _) => none
  | .kad e => (Kad.step s.kad e).map fun kad => { s with kad := kad }
  | .filtered t fr =>
    match s.kad.threads[t]? with
    | some (.filtering item rtn) =>
      let s := s.filter rtn fr
      some { s with kad := s.kad.visited t item rtn }
    | _ => none

/-! ### What is promised -/

def Hosts (s : ChunkSearch) (id : Sha1) : Prop := (id, Result.available) ∈ s.answers

/-- `hosting_nodes` and `current_results` as `publish_loop` goes through them. -/
def hosting (s : ChunkSearch) : List (Sha1 × Sha1) := s.hostResults.entries

def near (s : ChunkSearch) : List (Sha1 × Sha1) := s.kad.results.entries.map fun e => (e.1, e.2.id)

def busy (s : ChunkSearch) : Nat := s.kad.threads.countP fun th => th.item?.isSome

/-- An event of a search that is under way; anyone may end it, but not take it up again. -/
def within : Event → Prop
  | .kad .start | .kad (.launch _) | .kad (.setStatus .searching) => False
  | .kad _ | .filtered .. => True

instance : DecidablePred within
  | .kad .start | .kad (.launch _) | .kad (.setStatus .searching) => inferInstanceAs (Decidable False)
  | .kad (.setStatus .idle) | .kad (.setStatus .canceled) | .kad (.setStatus .done) | .kad (.take _) | .kad (.leave _)
  | .kad (.connected ..) | .kad (.filtered _) | .kad (.failed _) | .kad (.replied ..) | .filtered .. =>
    inferInstanceAs (Decidable True)

/-! ### The search behind it -/

variable {s s' : ChunkSearch}

/-- All a step can do. -/
theorem step_cases {e : Event} (hs : step s e = some s') :
    (∃ ke kad, e = .kad ke ∧ (∀ t, ke ≠ .filtered t) ∧ Kad.step s.kad ke = some kad ∧ s' = { s with kad := kad }) ∨
      ∃ t fr item rtn, e = .filtered t fr ∧ s.kad.threads[t]? = some (.filtering item rtn) ∧
        s' = { s.filter rtn fr with kad := (s.filter rtn fr).kad.visited t item rtn } := by
  cases e with
  | kad ke =>
    have hkad (h : ∀ t, ke ≠ .filtered t) :
        step s (.kad ke) = (Kad.step s.kad ke).map fun kad => { s with kad := kad } := by
      cases ke with
      | filtered t => exact absurd rfl (h t)
      | start | launch | take | leave | connected | failed | replied | setStatus => rfl
    by_cases h : ∃ t, ke = .filtered t
    · obtain ⟨t, rfl⟩ := h
      cases hs
    · have hne (t) : ke ≠ .filtered t := fun he => h ⟨t, he⟩
      rw [hkad hne] at hs
      obtain ⟨kad, hk, rfl⟩ := Option.map_eq_some_iff.mp hs
      exact .inl ⟨ke, kad, rfl, hne, hk, rfl⟩
  | filtered t fr =>
    rw [step] at hs
    split at hs
    · next item rtn ht =>
      obtain rfl := Option.some.inj hs
      exact .inr ⟨t, fr, item, rtn, rfl, ht, rfl⟩
    · cases hs

/-- `filter` changes nothing of the search but its status. -/
theorem filter_kad (s : ChunkSearch) (id : Sha1) (fr : FetchReply) :
    (s.filter id fr).kad = s.kad ∨ (s.filter id fr).kad = { s.kad with status := .done } := by
  by_cases h : fr.result = .available ∧ s.kad.n.toNat ≤ (s.hostsWith id fr).size
  · exact .inr (if_pos h)
  · exact .inl (if_neg h)

/-- A step is one of the search, which may be told before that it is done. -/
theorem step_kad {e : Event} (hs : step s e = some s') : ∃ es, run Kad.step s.kad es = some s'.kad := by
  rcases step_cases hs with ⟨ke, kad, -, -, hk, rfl⟩ | ⟨t, fr, item, rtn, -, ht, rfl⟩
  · exact ⟨[ke], run_cons_of hk rfl⟩
  · have hvisit (k : Kad.Search) (hk : k.threads = s.kad.threads) :
        Kad.step k (.filtered t) = some (k.visited t item rtn) := by
      rw [Kad.step, hk, ht]
    rcases s.filter_kad rtn fr with heq | heq
    · exact ⟨[.filtered t], run_cons_of (hvisit _ rfl) (by rw [heq]; rfl)⟩
    · exact ⟨[.setStatus .done, .filtered t], run_cons_of rfl (run_cons_of (hvisit _ rfl) (by rw [heq]; rfl))⟩

theorem run_kad {es : List Event} (hr : run step s es = some s') : ∃ kes, run Kad.step s.kad kes = some s'.kad := by
  induction es generalizing s with
  | nil =>
    obtain rfl := Option.some.inj hr
    exact ⟨[], rfl⟩
  | cons e es ih =>
    obtain ⟨t, ht, hrest⟩ := run_cons hr
    obtain ⟨first, hfirst⟩ := step_kad ht
    obtain ⟨rest, hrest⟩ := ih hrest
    exact ⟨first ++ rest, run_append_of hfirst hrest⟩

/-! ### The nodes that host the chunk -/

def Listed (s : ChunkSearch) : Prop :=
  ∀ d id, s.hostResults.get? d = some id ↔ d = id ^^^ s.kad.target ∧ s.Hosts id

theorem Listed.filter (h : s.Listed) (rtn : Sha1) (fr : FetchReply) : (s.filter rtn fr).Listed := by
  have htarget : (s.filter rtn fr).kad.target = s.kad.target := by
    rcases s.filter_kad rtn fr with heq | heq
    · rw [heq]
    · rw [heq]
  have hhosts (id : Sha1) : (s.filter rtn fr).Hosts id ↔ fr.result = .available ∧ id = rtn ∨ s.Hosts id := by
    change (id, Result.available) ∈ (rtn, fr.result) :: s.answers ↔ _
    rw [List.mem_cons, Prod.mk.injEq, and_comm, @eq_comm _ Result.available]
    rfl
  intro d id
  rw [htarget, hhosts]
  change (s.hostsWith rtn fr).get? d = some id ↔ _
  rw [hostsWith]
  by_cases hav : fr.result = .available
  · rw [if_pos hav, SortedMap.get?_insert]
    split_ifs with hd
    · subst hd
      rw [Option.some_inj, BitVec.xor_left_inj]
      constructor
      · rintro rfl
        exact ⟨rfl, .inl ⟨hav, rfl⟩⟩
      · exact fun hand => hand.1
    · rw [h]
      constructor
      · exact fun hand => ⟨hand.1, .inr hand.2⟩
      · rintro ⟨rfl, ⟨-, rfl⟩ | hid⟩
        · exact absurd rfl hd
        · exact ⟨rfl, hid⟩
  · rw [if_neg hav, h]
    apply and_congr_right
    intro _
    exact (or_iff_right fun hand => hav hand.1).symm

theorem Listed.step {e : Event} (h : s.Listed) (hs : step s e = some s') : s'.Listed := by
  rcases step_cases hs with ⟨ke, kad, -, -, hk, rfl⟩ | ⟨t, fr, item, rtn, -, -, rfl⟩
  · intro d id
    rw [(Kad.Search.config_step hk).2]
    exact h d id
  · intro d id
    obtain ⟨status, th, -, heq⟩ := (s.filter rtn fr).kad.visited_fields t item rtn
    rw [heq]
    exact h.filter rtn fr d id

variable {n p : UInt32} {target : Sha1} {es : List Event}

theorem run_listed (hr : run step (create n p target) es = some s) :
    s.Listed ∧ Kad.Search.Closest s.kad ∧ s.kad.n = n ∧ s.kad.target = target := by
  obtain ⟨kes, hkes⟩ := run_kad hr
  refine ⟨?_, Kad.Search.run_closest hkes⟩
  apply invariant_of_step Listed (fun _ _ _ h hs => h.step hs) _ hr
  intro d id
  change none = some id ↔ d = id ^^^ target ∧ (id, Result.available) ∈ []
  simp

/-! ### The node to store the chunk on -/

theorem near_eq (h : Kad.Search.Closest s.kad) :
    s.near = (Kad.closest s.kad.target s.kad.n.toNat s.kad.completed).map fun d => (d, d ^^^ s.kad.target) := by
  rw [near, ← h.keys, SortedMap.keys, List.map_map]
  apply List.map_congr_left
  intro e he
  rw [Function.comp_apply, h.named e he]

private theorem mem_hosting (h : s.Listed) (id : Sha1) : id ^^^ s.kad.target ∈ s.hosting.map Prod.fst ↔ s.Hosts id := by
  rw [List.mem_map]
  constructor
  · rintro ⟨⟨d, id'⟩, hmem, hd⟩
    obtain ⟨rfl, hid⟩ := (h d id').mp (SortedMap.get?_eq_some_iff.mpr hmem)
    rwa [← (BitVec.xor_left_inj _).mp hd]
  · intro hid
    exact ⟨(id ^^^ s.kad.target, id), SortedMap.get?_eq_some_iff.mp ((h _ _).mpr ⟨rfl, hid⟩), rfl⟩

theorem mem_distances {S : Finset Sha1} {t id : Sha1} : id ^^^ t ∈ (S.image (· ^^^ t)).sort (· ≤ ·) ↔ id ∈ S := by
  rw [Finset.mem_sort, Finset.mem_image]
  constructor
  · rintro ⟨id', hid', he⟩
    rwa [← (BitVec.xor_left_inj _).mp he]
  · exact fun hid => ⟨id, hid, rfl⟩

/-- The first distance for which something holds is that of the nearest such node. -/
theorem find?_nearest {S : Finset Sha1} {t : Sha1} {p : Sha1 → Bool} (id : Sha1) :
    (((S.image (· ^^^ t)).sort (· ≤ ·)).find? p).map (· ^^^ t) = some id ↔
      (id ∈ S ∧ p (id ^^^ t) = true) ∧ ∀ id' ∈ S, p (id' ^^^ t) = true → id ^^^ t ≤ id' ^^^ t := by
  have hsorted := (S.image (· ^^^ t)).sortedLT_sort.pairwise
  have hfirst : (((S.image (· ^^^ t)).sort (· ≤ ·)).find? p).map (· ^^^ t) = some id ↔
      ((S.image (· ^^^ t)).sort (· ≤ ·)).find? p = some (id ^^^ t) := by
    rw [Option.map_eq_some_iff]
    constructor
    · rintro ⟨d, hd, rfl⟩
      rwa [xor_back]
    · exact fun hd => ⟨_, hd, xor_back id t⟩
  rw [hfirst, find?_sorted hsorted, mem_distances, and_assoc]
  apply and_congr_right
  intro _
  apply and_congr_right
  intro _
  constructor
  · intro hleast id' hid' hp
    exact hleast _ (mem_distances.mpr hid') hp
  · intro hleast d hd hp
    rw [← xor_back d t] at hd hp ⊢
    exact hleast _ (mem_distances.mp hd) hp

private theorem find?_distances_none {S : Finset Sha1} {t : Sha1} {p : Sha1 → Bool} :
    ((S.image (· ^^^ t)).sort (· ≤ ·)).find? p = none ↔ ∀ id ∈ S, p (id ^^^ t) = false := by
  rw [List.find?_eq_none]
  constructor
  · intro hall id hid
    exact Bool.eq_false_of_not_eq_true (hall _ (mem_distances.mpr hid))
  · intro hall d hd
    rw [← xor_back d t] at hd ⊢
    rw [Bool.not_eq_true]
    exact hall _ (mem_distances.mp hd)

/-- The search for the node goes through all that were visited, though the results are only so many. -/
theorem storeOnNode_eq (hclosest : Kad.Search.Closest s.kad) (hfew : s.hosting.length < s.kad.n.toNat) :
    storeOnNode s.hosting s.near =
      (((s.kad.completed.image (· ^^^ s.kad.target)).sort (· ≤ ·)).find? fun d => d ∉ s.hosting.map Prod.fst).map
        (· ^^^ s.kad.target) := by
  have hnodup := Finset.sort_nodup (s.kad.completed.image (· ^^^ s.kad.target)) (· ≤ ·)
  rw [storeOnNode, near_eq hclosest, Kad.closest]
  generalize (s.kad.completed.image (· ^^^ s.kad.target)).sort (· ≤ ·) = ds at hnodup
  have hcount := countP_mem_le hnodup (s.hosting.map Prod.fst)
  rw [List.length_map] at hcount
  have hothers : ds.countP (fun d => !decide (d ∉ s.hosting.map Prod.fst)) < s.kad.n.toNat := by
    simp only [decide_not, Bool.not_not]
    exact hcount.trans_lt hfew
  rw [List.find?_map, Option.map_map, ← find?_take hothers]
  rfl

/-- Whatever the fibers do and in which order: as long as fewer nodes host the chunk than were asked for, the node that
`publish_loop` stores it on is, of all nodes that were visited and have never said that they have the chunk, the nearest to
it, and there is none only if there is no such node. -/
theorem store_node (hr : run step (create n p target) es = some s) (hfew : s.hosting.length < n.toNat) :
    (∀ id, storeOnNode s.hosting s.near = some id ↔
      (id ∈ s.kad.completed ∧ ¬s.Hosts id) ∧
        ∀ id' ∈ s.kad.completed, ¬s.Hosts id' → id ^^^ target ≤ id' ^^^ target) ∧
      (storeOnNode s.hosting s.near = none ↔ ∀ id ∈ s.kad.completed, s.Hosts id) := by
  obtain ⟨hlisted, hclosest, rfl, rfl⟩ := run_listed hr
  have hfree (id : Sha1) : decide (id ^^^ s.kad.target ∉ s.hosting.map Prod.fst) = true ↔ ¬s.Hosts id := by
    rw [decide_eq_true_iff, mem_hosting hlisted]
  rw [storeOnNode_eq hclosest hfew]
  constructor
  · intro id
    rw [find?_nearest, hfree]
    simp only [hfree]
  · rw [Option.map_eq_none_iff, find?_distances_none]
    apply forall₂_congr
    intro id _
    rw [← Bool.not_eq_true, hfree, not_not]

/-- Two nodes are visited, of which the farther has the chunk and answers first. -/
def oneHost : List Event :=
  [.kad (.take 0), .kad (.take 1), .kad (.connected 1 6), .kad (.connected 0 5), .filtered 1 { result := .available },
    .filtered 0 { result := .ok }]

/-- A search for two nodes near 4, which 5 and 6 are known to be. -/
def started (es : List Event) : List Event :=
  .kad .start :: .kad (.launch [{ id := 5, ep := {} }, { id := 6, ep := {} }]) :: es

theorem store_node_oneHost : ∃ s, run step (create 2 2 4) (started oneHost) = some s ∧ s.hosting.length = 1 ∧
    storeOnNode s.hosting s.near = some 5 := by
  have hr : run step (create 2 2 4) (started oneHost) = some ((run step (create 2 2 4) (started oneHost)).get rfl) := rfl
  refine ⟨_, hr, by decide, ((store_node hr (by decide)).1 5).mpr ⟨⟨by decide, ?_⟩, ?_⟩⟩
  · change ¬(5, Result.available) ∈ [((5 : Sha1), Result.ok), (6, Result.available)]
    decide
  · intro id hid hnot
    have hcompleted : ((run step (create 2 2 4) (started oneHost)).get rfl).kad.completed = {5, 6} := by decide
    rw [hcompleted, Finset.mem_insert, Finset.mem_singleton] at hid
    rcases hid with rfl | rfl
    · exact le_refl _
    · exact absurd (List.mem_cons_of_mem _ List.mem_cons_self) hnot

/-! ### How many nodes host the chunk -/

/-- As long as the search goes on it has not found enough, and each fiber that has a node in hand adds one more at most. -/
structure Bounded (n p : UInt32) (s : ChunkSearch) : Prop where
  asked : s.kad.n = n
  fibers : s.kad.threads.length = p.toNat
  searching : s.kad.status = .searching → s.hosting.length + 1 ≤ max n.toNat 1
  total : s.hosting.length + s.busy + 1 ≤ max n.toNat 1 + p.toNat

private theorem busy_set (s : ChunkSearch) {t : Nat} {th : Thread} (ht : s.kad.threads[t]? = some th) (th' : Thread) :
    (s.kad.threads.set t th').countP (fun th => th.item?.isSome) + th.item?.isSome.toNat =
      s.busy + th'.item?.isSome.toNat :=
  Kad.Search.countP_set_add _ ht th'

/-- A fiber goes on, and takes no node. -/
theorem Bounded.setThread (h : Bounded n p s) {t : Nat} {th th' : Thread} {kad : Kad.Search}
    (ht : s.kad.threads[t]? = some th) (hitem : th'.item?.isSome.toNat ≤ th.item?.isSome.toNat)
    (hn : kad.n = s.kad.n) (hthreads : kad.threads = s.kad.threads.set t th') (hstatus : kad.status = s.kad.status) :
    Bounded n p { s with kad := kad } := by
  have hbusy := s.busy_set ht th'
  have htotal := h.total
  refine ⟨hn.trans h.asked, ?_, fun hs => h.searching (hstatus ▸ hs), ?_⟩
  · rw [hthreads, List.length_set]
    exact h.fibers
  · change s.hosting.length + kad.threads.countP _ + 1 ≤ _
    rw [hthreads]
    omega

/-- Any step of the search but the return of a `filter`. -/
theorem Bounded.kad (h : Bounded n p s) {e : Kad.Event} {k : Kad.Search} (hw : within (.kad e)) (hne : ∀ t, e ≠ .filtered t)
    (hk : Kad.step s.kad e = some k) : Bounded n p { s with kad := k } := by
  cases Kad.step_cases hk with
  | start | launch => cases hw
  | take t e rest ht hq hs =>
    have hsize := h.searching hs
    have hlength : (s.kad.threads.set t (.connecting e.2)).length = p.toNat := List.length_set.trans h.fibers
    have hbusy : (s.kad.threads.set t (.connecting e.2)).countP (fun th => th.item?.isSome) ≤ p.toNat :=
      hlength ▸ List.countP_le_length
    refine ⟨h.asked, hlength, fun _ => hsize, ?_⟩
    change s.hosting.length + (s.kad.threads.set t (.connecting e.2)).countP _ + 1 ≤ _
    omega
  | leave t ht => exact h.setThread ht (Nat.zero_le _) rfl rfl rfl
  | connected t rtn item ht =>
    have hitem : (Thread.filtering item rtn).item?.isSome.toNat ≤ (Thread.connecting item).item?.isSome.toNat := le_rfl
    exact h.setThread ht hitem rfl rfl rfl
  | filtered t => exact absurd rfl (hne t)
  | failed t th ht hc => exact h.setThread ht (Nat.zero_le _) rfl rfl rfl
  | replied t hosts rtn limit s₁ ht hr =>
    obtain rfl := Kad.Search.report_eq hr
    exact h.setThread ht (Nat.zero_le _) rfl rfl rfl
  | setStatus status =>
    refine ⟨h.asked, h.fibers, fun hs => ?_, h.total⟩
    obtain rfl : status = .searching := hs
    cases hw

/-- The reply of a node: one more may host the chunk, and if these are enough the search is done. -/
theorem filter_hosting (s : ChunkSearch) (rtn : Sha1) (fr : FetchReply) :
    (s.filter rtn fr).hosting.length ≤ s.hosting.length + 1 ∧
      ((s.filter rtn fr).kad.status = .searching →
        s.kad.status = .searching ∧ ((s.filter rtn fr).hosting.length = s.hosting.length ∨
          (s.filter rtn fr).hosting.length < s.kad.n.toNat)) := by
  change (s.hostsWith rtn fr).size ≤ s.hostResults.size + 1 ∧ (_ → _ ∧ ((s.hostsWith rtn fr).size = s.hostResults.size ∨
    (s.hostsWith rtn fr).size < _))
  by_cases hav : fr.result = .available
  · have hle : (s.hostsWith rtn fr).size ≤ s.hostResults.size + 1 := by
      rw [hostsWith, if_pos hav]
      exact SortedMap.size_insert_le _ _ _
    refine ⟨hle, fun hs => ?_⟩
    by_cases hfull : s.kad.n.toNat ≤ (s.hostsWith rtn fr).size
    · rw [filter, if_pos ⟨hav, hfull⟩] at hs
      cases hs
    · rw [filter, if_neg fun hand => hfull hand.2] at hs
      exact ⟨hs, .inr (Nat.not_le.mp hfull)⟩
  · have hsame : s.hostsWith rtn fr = s.hostResults := if_neg hav
    rw [hsame]
    refine ⟨Nat.le_succ _, fun hs => ?_⟩
    rw [filter, if_neg fun hand => hav hand.1] at hs
    exact ⟨hs, .inl rfl⟩

private theorem visited_status {k : Kad.Search} {t : Nat} {item : Host} {rtn : Sha1}
    (h : (k.visited t item rtn).status = .searching) : k.status = .searching := by
  rw [Kad.Search.visited] at h
  split_ifs at h with hrtn hdone hdone
  · cases h
  · cases h
  · exact h
  · exact h

theorem Bounded.filtered (h : Bounded n p s) {t : Nat} {item : Host} {rtn : Sha1} (fr : FetchReply)
    (ht : s.kad.threads[t]? = some (.filtering item rtn)) :
    Bounded n p { s.filter rtn fr with kad := (s.filter rtn fr).kad.visited t item rtn } := by
  obtain ⟨hle, hsearching⟩ := s.filter_hosting rtn fr
  obtain ⟨status, th, hth, heq⟩ := (s.filter rtn fr).kad.visited_fields t item rtn
  have hkad : (s.filter rtn fr).kad.threads = s.kad.threads ∧ (s.filter rtn fr).kad.n = s.kad.n := by
    rcases s.filter_kad rtn fr with hk | hk
    · rw [hk]
      exact ⟨rfl, rfl⟩
    · rw [hk]
      exact ⟨rfl, rfl⟩
  have hthreads : ((s.filter rtn fr).kad.visited t item rtn).threads = s.kad.threads.set t th := by
    rw [heq, ← hkad.1]
    rfl
  have hitem : th.item?.isSome = false := by
    rcases hth with rfl | ⟨l, rfl⟩
    · rfl
    · rfl
  have hbusy := s.busy_set ht th
  rw [hitem] at hbusy
  change _ + 1 = _ + 0 at hbusy
  have htotal := h.total
  refine ⟨?_, ?_, fun hs => ?_, ?_⟩
  · rw [heq]
    exact hkad.2.trans h.asked
  · rw [hthreads, List.length_set]
    exact h.fibers
  · obtain ⟨hon, hsize⟩ := hsearching (visited_status hs)
    have hbefore := h.searching hon
    rw [h.asked] at hsize
    change (s.filter rtn fr).hosting.length + 1 ≤ _
    omega
  · change (s.filter rtn fr).hosting.length + ((s.filter rtn fr).kad.visited t item rtn).threads.countP _ + 1 ≤ _
    rw [hthreads]
    omega

theorem Bounded.step (h : Bounded n p s) {e : Event} (hw : within e) (hs : step s e = some s') : Bounded n p s' := by
  rcases step_cases hs with ⟨ke, kad, rfl, hne, hk, rfl⟩ | ⟨t, fr, item, rtn, rfl, ht, rfl⟩
  · exact h.kad hw hne hk
  · exact h.filtered fr ht

/-- However the replies come in, a search finds as many nodes as were asked for and at most one more for each fiber but
the one that ends it; those it has found are the ones that said so, under their distances. -/
theorem hosts_bounded {near : List Host} (hes : ∀ e ∈ es, within e)
    (hr : run step (create n p target) (.kad .start :: .kad (.launch near) :: es) = some s) :
    s.hosting.length + 1 ≤ max n.toNat 1 + p.toNat ∧
      ∀ d id, (d, id) ∈ s.hosting ↔ d = id ^^^ target ∧ s.Hosts id := by
  obtain ⟨hlisted, -, -, rfl⟩ := run_listed hr
  refine ⟨?_, fun d id => SortedMap.get?_eq_some_iff.symm.trans (hlisted d id)⟩
  obtain ⟨s₁, hs₁, hrest⟩ := run_cons hr
  obtain ⟨s₂, hs₂, hrest⟩ := run_cons hrest
  obtain rfl := Option.some.inj hs₁
  obtain rfl := Option.some.inj hs₂
  have hstart : Bounded n p
      { create n p s.kad.target with kad := (Kad.Search.create n p s.kad.target).start.launch near } := by
    have hthreads : ((Kad.Search.create n p s.kad.target).start.launch near).threads = List.replicate p.toNat .loop := by
      rw [Kad.Search.launch_eq]
      rfl
    refine ⟨?_, ?_, fun _ => Nat.le_max_right _ _, ?_⟩
    · rw [Kad.Search.launch_eq]
      rfl
    · rw [hthreads, List.length_replicate]
    · change 0 + _ + 1 ≤ _
      rw [busy, hthreads, List.countP_replicate]
      have hmax := Nat.le_max_right n.toNat 1
      have hnone : (if Thread.loop.item?.isSome = true then p.toNat else 0) = 0 := rfl
      rw [hnone]
      omega
  have hend := invariant_of_guarded (Bounded n p) (fun _ _ _ h hw hs => h.step hw hs) hstart
    (guarded_of_forall fun e he _ => hes e he) hrest
  exact le_trans (by omega) hend.total

/-- Both nodes have the chunk, and the second reply comes when the first has ended the search. -/
def twoHosts : List Event :=
  [.kad (.take 0), .kad (.take 1), .kad (.connected 1 6), .kad (.connected 0 5), .filtered 1 { result := .available },
    .filtered 0 { result := .available }]

theorem hosts_bounded_two : ∃ s, run step (create 1 2 4) (started twoHosts) = some s ∧ s.hosting = [(1, 5), (2, 6)] ∧
    s.hosting.length + 1 ≤ max 1 1 + 2 := by
  have hr : run step (create 1 2 4) (started twoHosts) = some ((run step (create 1 2 4) (started twoHosts)).get rfl) := rfl
  exact ⟨_, hr, by decide, (hosts_bounded (by decide) hr).1⟩

end ChunkSearch

end Tornet.Chunk
