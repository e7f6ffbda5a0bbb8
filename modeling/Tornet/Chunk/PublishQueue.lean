import Tornet.Chunk.Publishing
import Tornet.Kad.Search
import Tornet.Library.Indexed

/-! `db::publish` with its index by the next update, and the fiber of `publish_loop` that works off what it finds
first there, while others store records. -/
namespace Tornet.Chunk.PublishQueue
open Library Runs Publishing

/-- `get_publish_next`; `compare_i64` takes it for a signed number. -/
def publishNext (r : PublishRecord) : Int64 := r.nextUpdate.toInt64

/-- `m_publish_db` and `m_next_index_db`. -/
abbrev PublishDb := Table Sha1 Int64 PublishRecord publishNext

/-- `publish::store`. -/
def PublishDb.store (db : PublishDb) (id : Sha1) (m : PublishRecord) : PublishDb := db.put id m

/-- `publish::fetch_next`: the record of the first entry of the index. -/
def PublishDb.fetchNext (db : PublishDb) : Option (Sha1 × PublishRecord) := db.index.head?.bind db.pget

/-- The databases, `_publishing`, and the one fiber. -/
structure State where
  db : PublishDb := .empty
  publishing : Bool := false
  loop : Point := .finished

/-- A `store` by anyone else, `enable_publishing`, and the fiber as it goes on. -/
inductive Event where
  | publish (id : Sha1) (m : PublishRecord)
  | enable (state : Bool)
  | fetchNext (now : UInt64)
  | awake
  | searched (now : UInt64) (hosts : Nat) (storeOnNode : Bool)
  | stored (now : UInt64) (result : Result)
  | record
  | throws
  deriving DecidableEq, Repr

def advance (s : State) (input : Input) : Option State :=
  (publishLoop s.publishing s.loop input).map fun p => { s with loop := p }

/-- One event; `none` where the fiber is not at that point, and where a second fiber would start. -/
def step (s : State) : Event → Option State
  | .publish id m => some { s with db := s.db.store id m }
  | .enable state =>
    if state = s.publishing then some s
    else if state then
      if s.loop.live then none else some { s with publishing := true, loop := .top }
    else some { s with publishing := false }
  | .fetchNext now => if s.loop = .top then advance s (.fetched now s.db.fetchNext) else none
  | .awake =>
    match s.loop with
    | .sleeping .. | .idling => advance s .awake
    | _ => none
  | .searched now hosts storeOnNode => advance s (.searched now hosts storeOnNode)
  | .stored now result => advance s (.stored now result)
  | .record =>
    match s.loop with
    | .recording cid next => advance { s with db := s.db.store cid next } .awake
    | _ => none
  | .throws => if s.loop.mayThrow ∧ (s.loop = .top → s.publishing) then some { s with loop := .failed } else none

/-! ### What is promised -/

def held : Point → Option Sha1
  | .sleeping cid _ | .searching cid _ | .storing cid _ | .recording cid _ => some cid
  | .top | .idling | .finished | .failed => none

/-- An entry of the index before that of a record. -/
def before (id : Sha1) (m : PublishRecord) (e : Int64 ×ₗ Sha1) : Bool := e < toLex (publishNext m, id)

def ahead (db : PublishDb) (id : Sha1) (m : PublishRecord) : Nat := db.index.countP (before id m)

/-- The record waits: it is not taken and not stored anew, and whatever is at work on another chunk puts that behind. -/
def waits (id : Sha1) (m : PublishRecord) (s : State) : Event → Prop
  | .publish id' _ => id' ≠ id
  | .fetchNext _ => s.publishing = true → s.db.fetchNext.map Prod.fst ≠ some id
  | .searched now .. | .stored now _ => publishNext m < publishNext (dueAgain m now)
  | .enable _ | .awake | .record | .throws => True

instance (id : Sha1) (m : PublishRecord) (s : State) : (e : Event) → Decidable (waits id m s e)
  | .publish id' _ => inferInstanceAs (Decidable (id' ≠ id))
  | .fetchNext _ => inferInstanceAs (Decidable (s.publishing = true → s.db.fetchNext.map Prod.fst ≠ some id))
  | .searched now .. | .stored now _ =>
    inferInstanceAs (Decidable (publishNext m < publishNext (dueAgain m now)))
  | .enable _ | .awake | .record | .throws => inferInstanceAs (Decidable True)

def turn : Event → Nat
  | .record => 1
  | _ => 0

def published : Event → Nat
  | .publish .. => 1
  | _ => 0

/-! ### The first in the queue -/

variable {s t : State} {id : Sha1} {m : PublishRecord}

private theorem mem_index {db : PublishDb} (h : db.primary.get? id = some m) : toLex (publishNext m, id) ∈ db.index :=
  (db.coherent _ _).mpr ⟨m, h, rfl⟩

/-- What is taken is a record of the database, and none is due before it. -/
theorem fetchNext_eq_some {db : PublishDb} {cid : Sha1} {next : PublishRecord}
    (h : db.fetchNext = some (cid, next)) :
    db.primary.get? cid = some next ∧ ∀ e ∈ db.index, toLex (publishNext next, cid) ≤ e := by
  obtain ⟨e, he, hget⟩ := Option.bind_eq_some_iff.mp h
  obtain ⟨rest, hindex⟩ := List.head?_eq_some_iff.mp he
  have hmem : e ∈ db.index := by
    rw [hindex]
    exact List.mem_cons_self
  obtain ⟨v, hv, hlookup, hkey⟩ := db.pget_eq_some hmem
  obtain ⟨rfl, rfl⟩ := Prod.mk.inj (Option.some.inj (hget.symm.trans hv))
  refine ⟨hlookup, fun e' he' => ?_⟩
  have hfirst : toLex (publishNext next, (ofLex e).2) = e := by
    rw [hkey]
    rfl
  rw [hfirst]
  have hsorted := db.sorted
  rw [hindex] at he' hsorted
  rcases List.mem_cons.mp he' with rfl | hrest
  · exact le_refl _
  · exact ((List.pairwise_cons.mp hsorted).1 e' hrest).le

/-- Nothing is taken from an empty database only. -/
theorem fetchNext_eq_none {db : PublishDb} (h : db.fetchNext = none) : db.index = [] := by
  cases hindex : db.index with
  | nil => rfl
  | cons e rest =>
    have hmem : e ∈ db.index := by
      rw [hindex]
      exact List.mem_cons_self
    obtain ⟨v, hv, -⟩ := db.pget_eq_some hmem
    rw [PublishDb.fetchNext, hindex] at h
    exact absurd (h.symm.trans hv) (by simp)

/-! ### The wait -/

/-- The entries before the record that the fiber is not at work on, and the one it is at work on. -/
def weight (id : Sha1) (m : PublishRecord) (s : State) : Nat :=
  s.db.index.countP (fun e => before id m e && decide (held s.loop ≠ some (ofLex e).2)) +
    if (held s.loop).isSome then 1 else 0

/-- The record is in its place, another is at work on, and what is about to be stored goes behind. -/
structure Waiting (id : Sha1) (m : PublishRecord) (s : State) : Prop where
  stored : s.db.primary.get? id = some m
  other : held s.loop ≠ some id
  behind : ∀ cid next, s.loop = .recording cid next → publishNext m < publishNext next

theorem weight_of_free (h : held s.loop = none) : weight id m s = ahead s.db id m := by
  rw [weight, h, ahead]
  simp

theorem weight_of_held {cid : Sha1} (h : held s.loop = some cid) :
    weight id m s = s.db.index.countP (fun e => before id m e && decide ((ofLex e).2 ≠ cid)) + 1 := by
  rw [weight, h]
  simp [eq_comm]

/-- With one chunk aside there is one entry less at most. -/
theorem ahead_le_weight (s : State) : ahead s.db id m ≤ weight id m s := by
  cases h : held s.loop with
  | none => rw [weight_of_free h]
  | some cid =>
    rw [weight_of_held h]
    exact s.db.countP_le_others cid _

/-- The fiber goes on and is at work on the same chunk. -/
theorem Waiting.move (h : Waiting id m s) (hdb : t.db = s.db) (hheld : held t.loop = held s.loop)
    (hnext : ∀ cid next, t.loop = .recording cid next → publishNext m < publishNext next) :
    Waiting id m t ∧ weight id m t ≤ weight id m s := by
  refine ⟨⟨hdb ▸ h.stored, hheld ▸ h.other, hnext⟩, ?_⟩
  rw [weight, weight, hdb, hheld]

/-- Where the fiber goes from the top. -/
theorem fetched_next {publishing : Bool} {q : Point} {now : UInt64} {found : Option (Sha1 × PublishRecord)}
    (h : publishLoop publishing .top (.fetched now found) = some q) :
    (held q = none ∧ ∀ cid next, q = .recording cid next → publishNext m < publishNext next) ∨
      publishing = true ∧ ∃ cid next, found = some (cid, next) ∧ held q = some cid ∧
        ∀ cid next, q = .recording cid next → publishNext m < publishNext next := by
  cases publishing with
  | false =>
    obtain rfl := Option.some.inj h
    exact .inl ⟨rfl, by simp⟩
  | true =>
    cases found with
    | none =>
      obtain rfl := Option.some.inj h
      exact .inl ⟨rfl, by simp⟩
    | some f =>
      obtain rfl := Option.some.inj h
      refine .inr ⟨rfl, f.1, f.2, rfl, ?_, ?_⟩
      · split_ifs <;> rfl
      · split_ifs <;> simp

private theorem held_of_not_live {p : Point} (h : ¬p.live = true) : held p = none := by
  cases p with
  | finished | failed => rfl
  | top | sleeping | searching | storing | recording | idling => exact absurd rfl h

private theorem searched_next {publishing : Bool} {p q : Point} {now : UInt64} {hosts : Nat} {onNode : Bool}
    (h : publishLoop publishing p (.searched now hosts onNode) = some q) :
    held q = held p ∧ ∀ cid next, q = .recording cid next → publishNext next = publishNext (dueAgain m now) := by
  cases p with
  | searching cid next =>
    obtain rfl := Option.some.inj h
    split_ifs
    · exact ⟨rfl, by simp⟩
    · refine ⟨rfl, ?_⟩
      rintro cid' next' ⟨⟩
      rfl
  | top | sleeping | storing | recording | idling | finished | failed => cases h

theorem stored_next {publishing : Bool} {p q : Point} {now : UInt64} {result : Result}
    (h : publishLoop publishing p (.stored now result) = some q) :
    held q = held p ∧ ∀ cid next, q = .recording cid next → publishNext next = publishNext (dueAgain m now) := by
  cases p with
  | storing cid next =>
    obtain rfl := Option.some.inj h
    refine ⟨rfl, ?_⟩
    rintro cid' next' ⟨⟩
    rfl
  | top | sleeping | searching | recording | idling | finished | failed => cases h

/-- The first is taken from the entries before the record. -/
theorem weight_fetch {cid : Sha1} {next : PublishRecord} {p : Point} (h : Waiting id m s)
    (hfetch : s.db.fetchNext = some (cid, next)) (hne : cid ≠ id) (hfree : held s.loop = none) (hp : held p = some cid) :
    weight id m { s with loop := p } ≤ weight id m s := by
  obtain ⟨hstored, hleast⟩ := fetchNext_eq_some hfetch
  have hlt : toLex (publishNext next, cid) < toLex (publishNext m, id) := by
    apply lt_of_le_of_ne (hleast _ (mem_index h.stored))
    intro he
    exact hne (Prod.mk.inj (toLex.injective he)).2
  rw [weight_of_free hfree, ahead]
  apply (weight_of_held (s := { s with loop := p }) hp).le.trans
  have hbefore : before id m (toLex (publishNext next, cid)) = true := decide_eq_true hlt
  exact s.db.countP_others_lt (mem_index hstored) hbefore

/-- What is stored behind the record takes its chunk from those before it. -/
theorem ahead_store {cid : Sha1} {next : PublishRecord} (h : publishNext m < publishNext next) :
    ahead (s.db.store cid next) id m = s.db.index.countP fun e => before id m e && decide ((ofLex e).2 ≠ cid) := by
  have hlt : toLex (publishNext m, id) < toLex (publishNext next, cid) := Prod.Lex.toLex_lt_toLex.mpr (.inl h)
  have hbehind : before id m (toLex (publishNext next, cid)) = false := decide_eq_false hlt.asymm
  rw [ahead, PublishDb.store, Table.countP_put, hbehind]
  exact Nat.add_zero _

/-- Any other record adds at most one. -/
theorem weight_publish {id' : Sha1} {m' : PublishRecord} :
    weight id m { s with db := s.db.store id' m' } ≤ weight id m s + 1 := by
  rw [weight, weight, PublishDb.store, Table.countP_put]
  have hle := s.db.index.countP_mono_left
    (p := fun e => (before id m e && decide (held s.loop ≠ some (ofLex e).2)) && decide ((ofLex e).2 ≠ id'))
    (q := fun e => before id m e && decide (held s.loop ≠ some (ofLex e).2))
    (fun e _ he => (Bool.and_eq_true_iff.mp he).1)
  dsimp only
  split_ifs <;> omega

/-- One event of a record that waits: a stored record makes the wait shorter by one, and one that someone else stores
longer by one at most. -/
theorem Waiting.step {e : Event} (h : Waiting id m s) (hw : waits id m s e) (hs : step s e = some t) :
    Waiting id m t ∧ weight id m t + turn e ≤ weight id m s + published e := by
  cases e with
  | publish id' m' =>
    obtain rfl := Option.some.inj hs
    refine ⟨⟨?_, h.other, h.behind⟩, weight_publish⟩
    rw [PublishDb.store, Table.get?_put, if_neg (Ne.symm hw)]
    exact h.stored
  | enable state =>
    rw [PublishQueue.step] at hs
    split_ifs at hs with heq hon hlive
    · obtain rfl := Option.some.inj hs
      exact h.move rfl rfl h.behind
    · obtain rfl := Option.some.inj hs
      exact h.move rfl (held_of_not_live hlive).symm (by simp)
    · obtain rfl := Option.some.inj hs
      exact h.move rfl rfl h.behind
  | fetchNext now =>
    rw [PublishQueue.step] at hs
    split_ifs at hs with htop
    obtain ⟨p, hp, rfl⟩ := Option.map_eq_some_iff.mp hs
    have hfree : held s.loop = none := by
      rw [htop]
      rfl
    rcases fetched_next (htop ▸ hp) with ⟨hnone, hquiet⟩ | ⟨hpub, cid, next, hfetch, hheld, hquiet⟩
    · exact h.move rfl (hnone.trans hfree.symm) hquiet
    · have hne : cid ≠ id := by
        rintro rfl
        exact hw hpub (by rw [hfetch]; rfl)
      refine ⟨⟨h.stored, ?_, hquiet⟩, weight_fetch h hfetch hne hfree hheld⟩
      rw [hheld]
      exact fun he => hne (Option.some.inj he)
  | awake =>
    have hloop : ∃ p, t = { s with loop := p } ∧ held p = held s.loop ∧ ∀ cid next, p ≠ .recording cid next := by
      rw [PublishQueue.step] at hs
      split at hs
      · next cid next hp =>
        obtain ⟨p, hp', rfl⟩ := Option.map_eq_some_iff.mp hs
        rw [hp] at hp' ⊢
        obtain rfl := Option.some.inj hp'
        exact ⟨_, rfl, rfl, by simp⟩
      · next hp =>
        obtain ⟨p, hp', rfl⟩ := Option.map_eq_some_iff.mp hs
        rw [hp] at hp' ⊢
        obtain rfl := Option.some.inj hp'
        exact ⟨_, rfl, rfl, by simp⟩
      · cases hs
    obtain ⟨p, rfl, hheld, hquiet⟩ := hloop
    exact h.move rfl hheld fun cid next he => absurd he (hquiet cid next)
  | searched now hosts storeOnNode =>
    obtain ⟨p, hp, rfl⟩ := Option.map_eq_some_iff.mp hs
    obtain ⟨hheld, hnext⟩ := searched_next hp
    exact h.move rfl hheld fun cid next he => (hnext cid next he).symm ▸ hw
  | stored now result =>
    obtain ⟨p, hp, rfl⟩ := Option.map_eq_some_iff.mp hs
    obtain ⟨hheld, hnext⟩ := stored_next hp
    exact h.move rfl hheld fun cid next he => (hnext cid next he).symm ▸ hw
  | record =>
    rw [PublishQueue.step] at hs
    split at hs
    · next cid next hp =>
      obtain ⟨p, hp', rfl⟩ := Option.map_eq_some_iff.mp hs
      have hbehind := h.behind cid next hp
      have hne : cid ≠ id := by
        rintro rfl
        exact h.other (by rw [hp]; rfl)
      change publishLoop s.publishing s.loop .awake = some p at hp'
      rw [hp] at hp'
      obtain rfl := Option.some.inj hp'
      refine ⟨⟨?_, by simp [held], by simp⟩, ?_⟩
      · rw [PublishDb.store, Table.get?_put, if_neg hne.symm]
        exact h.stored
      · rw [weight_of_free rfl, ahead_store hbehind, weight_of_held (by rw [hp]; rfl)]
        exact le_refl _
    · cases hs
  | throws =>
    rw [PublishQueue.step] at hs
    split_ifs at hs
    obtain rfl := Option.some.inj hs
    refine ⟨⟨h.stored, by simp [held], by simp⟩, ?_⟩
    rw [weight_of_free rfl]
    exact ahead_le_weight s

/-- While a record waits, the turns that end with a stored record are no more than the records that were before it at
the start of the first turn and those that others have stored since. -/
theorem turns_le {es : List Event} (hget : s.db.primary.get? id = some m) (htop : s.loop = .top)
    (hg : Guarded PublishQueue.step (waits id m) s es) (hr : run PublishQueue.step s es = some t) :
    total turn es ≤ ahead s.db id m + total published es := by
  have hs : Waiting id m s := by
    constructor
    · exact hget
    · rw [htop]
      simp [held]
    · simp [htop]
  rw [← weight_of_free (by rw [htop]; rfl)]
  apply cost_le_of_guarded (fun s _ => Waiting id m s) (weight id m) turn published _ hs hg hr
  intro s e es t hs hw hst
  exact hs.step hw hst

def twoRecords : State where
  db := (PublishDb.store .empty 5 { nextUpdate := 100 }).store 6 { nextUpdate := 50 }
  publishing := true
  loop := .top

/-- A turn for chunk 6, while chunk 7 is published. -/
def oneTurn : List Event :=
  [.fetchNext 60, .publish 7 { nextUpdate := 80 }, .awake, .searched 60 0 false, .record]

theorem turns_le_two : total turn oneTurn = 1 ∧ ahead twoRecords.db 5 { nextUpdate := 100 } = 1 ∧
    total turn oneTurn ≤ ahead twoRecords.db 5 { nextUpdate := 100 } + total published oneTurn := by
  refine ⟨rfl, by decide +kernel, ?_⟩
  have hr : run PublishQueue.step twoRecords oneTurn = some ((run PublishQueue.step twoRecords oneTurn).get rfl) := rfl
  apply turns_le (by decide +kernel) rfl _ hr
  decide +kernel

end Tornet.Chunk.PublishQueue
