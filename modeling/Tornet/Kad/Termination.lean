import Tornet.Kad.Narrowing

/-! How many nodes a search visits: a weight that every iteration of a `search_thread` takes from, as long as no record
is put in the queue again after it was visited. -/
namespace Tornet.Kad
open Library Runs

def Event.hosts : Event → List Host
  | .launch hosts | .replied _ hosts => hosts
  | _ => []

def Thread.item? : Thread → Option Host
  | .connecting item | .filtering item _ => some item
  | _ => none

def Thread.asks : Thread → Bool
  | .asking _ _ => true
  | _ => false

/-- The iterations of all fibers. -/
def iterations (es : List Event) : Nat := es.countP fun e => e matches .take _

def starts (es : List Event) : Nat := es.count .start

def launches (es : List Event) : Nat := es.countP fun e => e matches .launch _

namespace Search

variable {s s' : Search} {ids : Finset Sha1}

def served (s : Search) : Finset Sha1 := (s.visits.map fun v => v.item.id).toFinset

/-- Everything the search works on is from the pool. -/
structure Pooled (ids : Finset Sha1) (s : Search) : Prop where
  queued : ∀ e ∈ s.queue.entries, e.1 = s.dist e.2.id ∧ e.2.id ∈ ids
  held : ∀ th ∈ s.threads, ∀ item ∈ th.item?, item.id ∈ ids
  known : s.served ⊆ ids

theorem Pooled.size_le (h : Pooled ids s) : s.queue.size ≤ ids.card := by
  refine (s.queue.size_le_card (s := ids.image s.dist) ?_).trans Finset.card_image_le
  intro k hk
  obtain ⟨e, he, rfl⟩ := List.mem_map.mp hk
  obtain ⟨hkey, hid⟩ := h.queued e he
  rw [hkey]
  exact Finset.mem_image_of_mem _ hid

private theorem mem_fill {hosts : List Host} {e : Sha1 × Host} (he : e ∈ (s.fill hosts).entries) :
    (∃ h ∈ hosts, e = (s.dist h.id, h)) ∨ e ∈ s.queue.entries := by
  induction hosts generalizing s with
  | nil => exact .inr he
  | cons h rest ih =>
    rcases ih (s := s.enqueue h) he with ⟨h', hh', rfl⟩ | he
    · exact .inl ⟨h', List.mem_cons_of_mem h hh', rfl⟩
    · rcases mem_assign he with rfl | he
      · exact .inl ⟨h, List.mem_cons_self, rfl⟩
      · exact .inr he

theorem Pooled.fill (h : Pooled ids s) {hosts : List Host} (hids : ∀ h ∈ hosts, h.id ∈ ids) :
    ∀ e ∈ (s.fill hosts).entries, e.1 = s.dist e.2.id ∧ e.2.id ∈ ids := by
  intro e he
  rcases mem_fill he with ⟨h', hh', rfl⟩ | he
  · exact ⟨rfl, hids h' hh'⟩
  · exact h.queued e he

theorem Pooled.setThread (h : Pooled ids s) {t : Nat} {th : Thread} (hth : ∀ item ∈ th.item?, item.id ∈ ids) :
    Pooled ids (s.setThread t th) := by
  refine ⟨h.queued, ?_, h.known⟩
  intro th' hth'
  rcases List.mem_or_eq_of_mem_set hth' with hold | rfl
  · exact h.held th' hold
  · exact hth

theorem Pooled.item (h : Pooled ids s) {t : Nat} {th : Thread} {item : Host} (ht : s.threads[t]? = some th)
    (hitem : th.item? = some item) : item.id ∈ ids :=
  h.held th (List.mem_of_getElem? ht) item hitem

theorem served_addResult (s : Search) (item : Host) (rtn : Sha1) :
    (s.addResult item rtn).served = insert item.id s.served := by
  rw [served, addResult, List.map_cons, List.toFinset_cons]
  rfl

/-- What a search works on stays in the pool that its events are drawn from. -/
theorem Pooled.step (h : Pooled ids s) {e : Event} (hids : ∀ h ∈ e.hosts, h.id ∈ ids) (hs : Kad.step s e = some s') :
    Pooled ids s' := by
  cases step_cases hs with
  | start => exact ⟨h.queued, h.held, by simp [served, start]⟩
  | launch near _ =>
    rw [launch_eq]
    refine ⟨h.fill hids, ?_, h.known⟩
    intro th hth
    rcases List.mem_append.mp hth with hth | hth
    · exact h.held th hth
    · obtain rfl := List.eq_of_mem_replicate hth
      simp [Thread.item?]
  | take t e rest _ hq _ =>
    have hmem : e ∈ s.queue.entries := by simp [hq]
    have hpop : Pooled ids { s with queue := s.queue.eraseFirst } :=
      ⟨fun e' he' => h.queued e' (List.mem_of_mem_tail he'), h.held, h.known⟩
    apply hpop.setThread
    intro item hitem
    obtain rfl := Option.some.inj hitem
    exact (h.queued e hmem).2
  | leave t _ => exact h.setThread (by simp [Thread.item?])
  | connected t rtn item ht =>
    apply h.setThread
    intro item' hitem
    obtain rfl := Option.some.inj hitem
    exact h.item ht rfl
  | filtered t item rtn ht =>
    obtain ⟨status, th, hth, heq⟩ := s.visited_fields t item rtn
    have hadd : Pooled ids (s.addResult item rtn) := by
      refine ⟨h.queued, h.held, ?_⟩
      rw [served_addResult]
      exact Finset.insert_subset (h.item ht rfl) h.known
    have hnone : ∀ host ∈ th.item?, host.id ∈ ids := by
      rcases hth with rfl | ⟨l, rfl⟩ <;> simp [Thread.item?]
    have hput : Pooled ids ((s.addResult item rtn).setThread t th) := hadd.setThread hnone
    rw [heq]
    exact ⟨hput.queued, hput.held, hput.known⟩
  | failed t th ht hc => exact h.setThread (by simp [Thread.item?])
  | replied t hosts rtn limit s₁ ht hr =>
    obtain rfl := report_eq hr
    have hput : ∀ h ∈ s.put hosts, h.id ∈ ids := fun h' hh' => hids h' (List.mem_of_mem_filter hh')
    have hfill : Pooled ids { s with queue := s.fill (s.put hosts) } := ⟨h.fill hput, h.held, h.known⟩
    exact hfill.setThread (by simp [Thread.item?])
  | setStatus => exact ⟨h.queued, h.held, h.known⟩

/-! ### The weight of a search -/

def again (s : Search) (e : Sha1 × Host) : Bool := e.2.id ∈ s.served

/-- The fiber works on a record that was visited before. -/
def rework (s : Search) (th : Thread) : Bool := th.item?.any fun item => item.id ∈ s.served

/-- The replies to come, while at most `T` fibers run: each record of the pool may be visited once, and then again by
every fiber that has it and from the queue. -/
def credit (K T : Nat) (s : Search) : Nat :=
  (K - s.served.card) * (T + K) + (s.queue.entries.countP s.again + s.threads.countP s.rework) +
    s.threads.countP Thread.asks

/-- The iterations to come: those for the queue, and those for the hosts of each reply. -/
def weight (K T : Nat) (s : Search) : Nat := s.queue.size + K * credit K T s

/-- What an iteration costs. -/
def cost : Event → Nat
  | .take _ => 1
  | _ => 0

/-- What the two halves of `start` give. -/
def gain (K T : Nat) : Event → Nat
  | .start => K * (K * (T + K))
  | .launch _ => K * (K + 1)
  | _ => 0

theorem countP_set_add {α : Type*} (p : α → Bool) {l : List α} {t : Nat} {a : α} (ht : l[t]? = some a) (b : α) :
    (l.set t b).countP p + (p a).toNat = l.countP p + (p b).toNat := by
  obtain ⟨hlt, rfl⟩ := List.getElem?_eq_some_iff.mp ht
  have hpos : p l[t] = true → 0 < l.countP p := fun h => List.countP_pos_iff.mpr ⟨l[t], List.getElem_mem hlt, h⟩
  rw [List.countP_set hlt]
  cases ha : p l[t] <;> cases hb : p b <;> simp_all

/-- A host that was not visited adds nothing to the repeats in the queue. -/
theorem countP_fill_le {p : Sha1 × Host → Bool} {hosts : List Host} (hp : ∀ h ∈ hosts, ∀ k, p (k, h) = false) :
    (s.fill hosts).entries.countP p ≤ s.queue.entries.countP p := by
  have hassign : ∀ (k : Sha1) (h : Host) (es : List (Sha1 × Host)), p (k, h) = false →
      (assign k h es).countP p ≤ es.countP p := by
    intro k h es hph
    induction es with
    | nil => simp [assign, hph]
    | cons e es ih =>
      rw [assign]
      split_ifs
      · simp [hph]
      · simp [List.countP_cons, hph]
      · rw [List.countP_cons, List.countP_cons]
        omega
  induction hosts generalizing s with
  | nil => exact Nat.le_refl _
  | cons h rest ih =>
    calc ((s.enqueue h).fill rest).entries.countP p
      _ ≤ (s.enqueue h).queue.entries.countP p := ih fun h' hh' => hp h' (List.mem_cons_of_mem h hh')
      _ ≤ s.queue.entries.countP p := hassign _ h _ (hp h List.mem_cons_self _)

/-- No reply makes the search put a record in the queue again that it has visited. -/
def Fresh (s : Search) : Event → Prop
  | .replied _ hosts => ∀ h ∈ s.put hosts, h.id ∉ s.served
  | _ => True

instance decidableFresh (s : Search) : (e : Event) → Decidable (Fresh s e)
  | .replied _ hosts => inferInstanceAs (Decidable (∀ h ∈ s.put hosts, h.id ∉ s.served))
  | .start | .launch _ | .take _ | .leave _ | .connected _ _ | .filtered _ | .failed _ | .setStatus _ => isTrue trivial

def fibers (s : Search) : Event → Nat
  | .launch _ => s.threads.length + s.p.toNat
  | _ => s.threads.length

section
variable {T : Nat}

theorem weight_le_of_credit {c g : Nat} {K : Nat} (hsize : s'.queue.size + c ≤ s.queue.size + g)
    (hcredit : credit K T s' ≤ credit K T s) : weight K T s' + c ≤ weight K T s + g := by
  have := Nat.mul_le_mul_left K hcredit
  rw [weight, weight]
  omega

/-- Replacing a fiber changes the credit by what the two fibers count. -/
theorem credit_setThread {K : Nat} {t : Nat} {th : Thread} (ht : s.threads[t]? = some th) (th' : Thread) :
    credit K T (s.setThread t th') + ((s.rework th).toNat + th.asks.toNat) =
      credit K T s + ((s.rework th').toNat + th'.asks.toNat) := by
  have hre := countP_set_add s.rework ht th'
  have hask := countP_set_add Thread.asks ht th'
  change (K - s.served.card) * (T + K) + (s.queue.entries.countP s.again + (s.threads.set t th').countP s.rework) +
    (s.threads.set t th').countP Thread.asks + _ = _
  rw [credit]
  omega

/-- A visit that was completed leaves credit for the reply. -/
theorem credit_addResult (h : Pooled ids s) {t : Nat} {item : Host} {rtn : Sha1} {th : Thread} (hT : s.threads.length ≤ T)
    (ht : s.threads[t]? = some (.filtering item rtn)) (hth : th.item? = none) :
    credit ids.card T ((s.addResult item rtn).setThread t th) ≤ credit ids.card T s := by
  have hask : th.asks.toNat ≤ 1 := Bool.toNat_le th.asks
  by_cases hin : item.id ∈ s.served
  · -- a repeat: nothing new is served, and the fiber had counted for it
    have hserved : (s.addResult item rtn).served = s.served := by
      rw [served_addResult, Finset.insert_eq_of_mem hin]
    have hcredit : credit ids.card T (s.addResult item rtn) = credit ids.card T s := by
      have hre : (s.addResult item rtn).rework = s.rework := by
        funext th
        rw [rework, rework, hserved]
      have hag : (s.addResult item rtn).again = s.again := by
        funext e
        rw [again, again, hserved]
      rw [credit, credit, hserved, hre, hag]
      rfl
    have hold : (s.addResult item rtn).rework (.filtering item rtn) = true := by
      simp [rework, Thread.item?, hserved, hin]
    have hnew : (s.addResult item rtn).rework th = false := by simp [rework, hth]
    have hset := credit_setThread (s := s.addResult item rtn) (K := ids.card) (T := T) ht th
    rw [hold, hnew, hcredit] at hset
    simp only [Bool.toNat_true, Bool.toNat_false] at hset
    omega
  · -- one record less is left, and that pays for all that now repeats it
    have hcard : (s.addResult item rtn).served.card = s.served.card + 1 := by
      rw [served_addResult, Finset.card_insert_of_notMem hin]
    have hle : s.served.card + 1 ≤ ids.card := by
      rw [← hcard, served_addResult]
      exact Finset.card_le_card (Finset.insert_subset (h.item ht rfl) h.known)
    have hone : (ids.card - s.served.card) * (T + ids.card) =
        (ids.card - (s.served.card + 1)) * (T + ids.card) + (T + ids.card) := by
      rw [show ids.card - s.served.card = ids.card - (s.served.card + 1) + 1 by omega, Nat.succ_mul]
    have hold : (s.addResult item rtn).rework (.filtering item rtn) = true := by
      simp [rework, Thread.item?, served_addResult]
    have hnew : (s.addResult item rtn).rework th = false := by simp [rework, hth]
    have hset := credit_setThread (s := s.addResult item rtn) (K := ids.card) (T := T) ht th
    have hqueue : s.queue.entries.countP (s.addResult item rtn).again ≤ ids.card :=
      List.countP_le_length.trans h.size_le
    have hthreads : s.threads.countP (s.addResult item rtn).rework ≤ T := List.countP_le_length.trans hT
    have hcredit : credit ids.card T (s.addResult item rtn) =
        (ids.card - (s.served.card + 1)) * (T + ids.card) +
          (s.queue.entries.countP (s.addResult item rtn).again + s.threads.countP (s.addResult item rtn).rework) +
          s.threads.countP Thread.asks := by
      rw [credit, hcard]
      rfl
    rw [hold, hnew] at hset
    rw [hcredit] at hset
    rw [credit.eq_1 ids.card T s, hone]
    simp only [Bool.toNat_true, Bool.toNat_false] at hset
    omega

private theorem credit_start (K T : Nat) (s : Search) : credit K T s.start ≤ credit K T s + K * (T + K) := by
  have hag : s.start.again = fun _ => false := by
    funext e
    simp [again, start, served]
  have hre : s.start.rework = fun _ => false := by
    funext th
    simp [rework, start, served]
  have hcard : s.start.served.card = 0 := rfl
  rw [credit, credit, hag, hre, hcard, List.countP_false, List.countP_false, Nat.sub_zero]
  change K * (T + K) + (0 + 0) + s.threads.countP Thread.asks ≤ _
  omega

private theorem credit_launch (T : Nat) (h : Pooled ids s) {near : List Host} (hids : ∀ h ∈ near, h.id ∈ ids) :
    credit ids.card T (s.launch near) ≤ credit ids.card T s + ids.card := by
  have hfill : Pooled ids { s with queue := s.fill near } := ⟨h.fill hids, h.held, h.known⟩
  have hqueue : (s.fill near).entries.countP s.again ≤ ids.card := List.countP_le_length.trans hfill.size_le
  have hloop : (List.replicate s.p.toNat Thread.loop).countP s.rework = 0 := by simp [List.countP_replicate, rework, Thread.item?]
  have hasks : (List.replicate s.p.toNat Thread.loop).countP Thread.asks = 0 := by simp [List.countP_replicate, Thread.asks]
  rw [launch_eq]
  change (ids.card - s.served.card) * (T + ids.card) + ((s.fill near).entries.countP s.again +
    (s.threads ++ List.replicate s.p.toNat Thread.loop).countP s.rework) +
      (s.threads ++ List.replicate s.p.toNat Thread.loop).countP Thread.asks ≤ _
  rw [List.countP_append, List.countP_append, hloop, hasks, credit]
  omega

/-- The record goes from the queue to the fiber. -/
theorem credit_take (K T : Nat) {t : Nat} {e : Sha1 × Host} {rest : List (Sha1 × Host)} (ht : s.threads[t]? = some .loop)
    (hq : s.queue.entries = e :: rest) :
    credit K T ({ s with queue := s.queue.eraseFirst }.setThread t (.connecting e.2)) = credit K T s := by
  have hset := credit_setThread (s := { s with queue := s.queue.eraseFirst }) (K := K) (T := T) ht (.connecting e.2)
  have hpop : credit K T { s with queue := s.queue.eraseFirst } + (s.again e).toNat = credit K T s := by
    change (K - s.served.card) * (T + K) + (s.queue.entries.tail.countP s.again + s.threads.countP s.rework) +
      s.threads.countP Thread.asks + (s.again e).toNat = _
    rw [credit, hq, List.tail_cons, List.countP_cons]
    cases s.again e <;> simp
    omega
  have hitem : rework { s with queue := s.queue.eraseFirst } (.connecting e.2) = s.again e := rfl
  rw [hitem] at hset
  simp only [rework, Thread.item?, Thread.asks, Option.any_none, Bool.toNat_false] at hset
  omega

/-- The reply takes its credit, and brings no repeats. -/
theorem credit_replied (K T : Nat) {t : Nat} {hosts : List Host} {rtn : Sha1} {limit : Option Sha1}
    (ht : s.threads[t]? = some (.asking rtn limit)) (hf : ∀ h ∈ s.put hosts, h.id ∉ s.served) :
    credit K T ({ s with queue := s.fill (s.put hosts) }.setThread t .loop) + 1 ≤ credit K T s := by
  have hset := credit_setThread (s := { s with queue := s.fill (s.put hosts) }) (K := K) (T := T) ht .loop
  have hqueue : (s.fill (s.put hosts)).entries.countP s.again ≤ s.queue.entries.countP s.again := by
    apply countP_fill_le
    intro h hh k
    exact decide_eq_false (hf h hh)
  have hfill : credit K T { s with queue := s.fill (s.put hosts) } ≤ credit K T s := by
    change (K - s.served.card) * (T + K) + ((s.fill (s.put hosts)).entries.countP s.again + s.threads.countP s.rework) +
      s.threads.countP Thread.asks ≤ _
    rw [credit]
    omega
  simp only [rework, Thread.item?, Thread.asks, Option.any_none, Bool.toNat_false, Bool.toNat_true] at hset
  omega

/-- Each step costs at most what it takes from the weight and what it is given. -/
theorem weight_step (h : Pooled ids s) {e : Event} (hids : ∀ h ∈ e.hosts, h.id ∈ ids) (hT : s.fibers e ≤ T)
    (hf : Fresh s e) (hs : Kad.step s e = some s') :
    weight ids.card T s' + cost e ≤ weight ids.card T s + gain ids.card T e := by
  have hpool := h.step hids hs
  cases step_cases hs with
  | start =>
    have := Nat.mul_le_mul_left ids.card (credit_start ids.card T s)
    rw [Nat.mul_add] at this
    have hqueue : s.start.queue = s.queue := rfl
    rw [weight, weight, hqueue]
    change _ + 0 ≤ _ + ids.card * (ids.card * (T + ids.card))
    omega
  | launch near _ =>
    have hsize := hpool.size_le
    have hcredit : credit ids.card T (s.launch near) ≤ credit ids.card T s + ids.card := credit_launch T h hids
    have := Nat.mul_le_mul_left ids.card hcredit
    rw [Nat.mul_add] at this
    rw [weight, weight]
    change _ + 0 ≤ _ + ids.card * (ids.card + 1)
    rw [Nat.mul_succ]
    omega
  | take t e rest ht hq _ =>
    refine weight_le_of_credit ?_ (credit_take ids.card T ht hq).le
    change s.queue.entries.tail.length + 1 ≤ s.queue.entries.length
    rw [hq]
    exact Nat.le_refl _
  | leave t ht =>
    have hset := credit_setThread (K := ids.card) (T := T) ht .ended
    refine weight_le_of_credit (Nat.le_refl _) ?_
    simp only [rework, Thread.item?, Thread.asks, Option.any_none, Bool.toNat_false] at hset
    omega
  | connected t rtn item ht =>
    have hset := credit_setThread (K := ids.card) (T := T) ht (.filtering item rtn)
    refine weight_le_of_credit (Nat.le_refl _) ?_
    simp only [rework, Thread.item?, Thread.asks, Bool.toNat_false] at hset
    omega
  | filtered t item rtn ht =>
    obtain ⟨status, th, hth, heq⟩ := s.visited_fields t item rtn
    have hnone : th.item? = none := by
      rcases hth with rfl | ⟨l, rfl⟩ <;> rfl
    rw [heq]
    exact weight_le_of_credit (Nat.le_refl _) (credit_addResult h hT ht hnone)
  | failed t th ht _ =>
    have hset := credit_setThread (K := ids.card) (T := T) ht .loop
    refine weight_le_of_credit (Nat.le_refl _) ?_
    simp only [rework, Thread.item?, Thread.asks, Option.any_none, Bool.toNat_false] at hset
    omega
  | replied t hosts rtn limit s₁ ht hr =>
    have hsize := hpool.size_le
    obtain rfl := report_eq hr
    have := Nat.mul_le_mul_left ids.card (credit_replied ids.card T ht hf)
    rw [Nat.mul_add, Nat.mul_one] at this
    rw [weight, weight]
    change _ + 0 ≤ _ + 0
    omega
  | setStatus => exact Nat.le_refl _

end

/-! ### Whole runs -/

theorem fibers_step {e : Event} (hs : Kad.step s e = some s') : s'.threads.length = s.fibers e ∧ s'.p = s.p := by
  cases step_cases hs with
  | start | setStatus => exact ⟨rfl, rfl⟩
  | launch near _ =>
    rw [launch_eq]
    exact ⟨by simp [fibers], rfl⟩
  | take | leave | connected | failed => exact ⟨List.length_set, rfl⟩
  | filtered t item rtn _ =>
    obtain ⟨status, th, -, heq⟩ := s.visited_fields t item rtn
    rw [heq]
    exact ⟨List.length_set, rfl⟩
  | replied t hosts rtn limit s₁ _ hr =>
    obtain rfl := report_eq hr
    exact ⟨List.length_set, rfl⟩

private theorem iterations_eq_total (es : List Event) : iterations es = total cost es := by
  induction es with
  | nil => rfl
  | cons e es ih =>
    rw [iterations, List.countP_cons, total, ← ih, iterations]
    cases e <;> simp [cost, Nat.add_comm]

private theorem total_gain (K T : Nat) (es : List Event) :
    total (gain K T) es = starts es * (K * (K * (T + K))) + launches es * (K * (K + 1)) := by
  induction es with
  | nil => simp [total, starts, launches]
  | cons e es ih =>
    rw [total, ih]
    cases e <;> simp [gain, starts, launches, Nat.add_mul] <;> omega

theorem launches_cons (e : Event) (es : List Event) (s : Search) :
    s.fibers e + launches es * s.p.toNat = s.threads.length + launches (e :: es) * s.p.toNat := by
  rw [launches, launches, List.countP_cons]
  cases e <;> simp [fibers, Nat.add_mul]
  omega

/-- In a run over a finite pool of host records in which no visited record is put in the queue again, the iterations of all
fibers together are bounded: by the number of ids in the pool, of fibers, and of times the search was started. -/
theorem iterations_le {pool : Finset Host} {n p : UInt32} {target : Sha1} {es : List Event}
    (hpool : ∀ e ∈ es, ∀ h ∈ e.hosts, h ∈ pool) (hg : Guarded Kad.step Fresh (create n p target) es)
    (hr : run Kad.step (create n p target) es = some s) :
    iterations es ≤ (starts es + 1) *
        ((pool.image Host.id).card * ((pool.image Host.id).card * (launches es * p.toNat + (pool.image Host.id).card))) +
      launches es * ((pool.image Host.id).card * ((pool.image Host.id).card + 1)) := by
  generalize hids : pool.image Host.id = ids
  have hdrawn : ∀ e ∈ es, ∀ h ∈ e.hosts, h.id ∈ ids := by
    intro e he h hh
    rw [← hids]
    exact Finset.mem_image_of_mem _ (hpool e he h hh)
  have hempty : Pooled ids (create n p target) := ⟨by simp [create], by simp [create], by simp [create, served]⟩
  have hcost := cost_le_of_guarded
    (fun s es' => Pooled ids s ∧ s.threads.length + launches es' * s.p.toNat ≤ launches es * p.toNat ∧
      ∀ e ∈ es', ∀ h ∈ e.hosts, h.id ∈ ids)
    (weight ids.card (launches es * p.toNat)) cost (gain ids.card (launches es * p.toNat)) ?_
    ⟨hempty, by simp [create], hdrawn⟩ hg hr
  · have hzero : weight ids.card (launches es * p.toNat) (create n p target) =
        ids.card * (ids.card * (launches es * p.toNat + ids.card)) := by
      simp [weight, credit, create, served, SortedMap.size]
    rw [hzero, total_gain] at hcost
    rw [iterations_eq_total, Nat.succ_mul]
    omega
  · rintro s e es' s' ⟨h, hT, hes⟩ hf hs
    obtain ⟨hlen, hp⟩ := fibers_step hs
    have hde : ∀ h ∈ e.hosts, h.id ∈ ids := hes e List.mem_cons_self
    rw [← launches_cons] at hT
    refine ⟨⟨h.step hde hs, ?_, fun e' he' => hes e' (List.mem_cons_of_mem e he')⟩, weight_step h hde (by omega) hf hs⟩
    rw [hlen, hp]
    exact hT

def twoFibersPool : Finset Host := {⟨5, {}, []⟩, ⟨6, {}, []⟩, ⟨7, {}, []⟩}

theorem iterations_le_twoFibers :
    iterations twoFibers ≤ (starts twoFibers + 1) * (3 * (3 * (launches twoFibers * (2 : UInt32).toNat + 3))) +
      launches twoFibers * (3 * (3 + 1)) := by
  have hr : run Kad.step (create 1 2 4) twoFibers = some ((run Kad.step (create 1 2 4) twoFibers).get rfl) := rfl
  have hpool : ∀ e ∈ twoFibers, ∀ h ∈ e.hosts, h ∈ twoFibersPool := by decide
  have hcard : (twoFibersPool.image Host.id).card = 3 := by decide
  have hle := iterations_le hpool (by decide +kernel) hr
  rwa [hcard] at hle

/-! ### What keeps visited records out of the queue -/

/-- Records have the ids of their nodes, and reported hosts are judged as by their distance. -/
def Honest (s : Search) : Event → Prop
  | .connected t rtn => ∀ item, s.threads[t]? = some (.connecting item) → item.id = rtn
  | .replied _ hosts => ∀ h ∈ hosts, s.SameSide h
  | _ => True

/-- Every node was visited under its own id. -/
structure Faithful (s : Search) : Prop extends Closest s where
  visits : ∀ v ∈ s.visits, v.item.id = v.rtn
  filtering : ∀ th ∈ s.threads, ∀ item rtn, th = .filtering item rtn → item.id = rtn

/-- A node that was visited is a result, or farther than every result while there are enough. -/
theorem Closest.kept_or_farther (h : Closest s) {id : Sha1} (hid : id ∈ s.completed) :
    s.dist id ∈ s.results.keys ∨ s.n.toNat ≤ s.results.size ∧ ∀ k ∈ s.results.keys, k < s.dist id := by
  have hmem : s.dist id ∈ (s.completed.image (· ^^^ s.target)).sort (· ≤ ·) :=
    (Finset.mem_sort _).mpr (Finset.mem_image_of_mem _ hid)
  have hsorted := (s.completed.image (· ^^^ s.target)).sortedLT_sort.pairwise
  rw [← SortedMap.length_keys, h.keys, closest]
  rw [← List.take_append_drop s.n.toNat ((s.completed.image (· ^^^ s.target)).sort (· ≤ ·))] at hmem hsorted
  rcases List.mem_append.mp hmem with hkept | hdropped
  · exact .inl hkept
  · refine .inr ⟨?_, fun k hk => (List.pairwise_append.mp hsorted).2.2 k hk _ hdropped⟩
    have := List.length_pos_of_mem hdropped
    rw [List.length_drop] at this
    rw [List.length_take]
    omega

theorem Faithful.not_served (h : Faithful s) {host : Host} (hside : s.SameSide host) (hq : s.queues host = some true) :
    host.id ∉ s.served := by
  intro hserved
  obtain ⟨v, hv, hid⟩ := List.mem_map.mp (List.mem_toFinset.mp hserved)
  have hcompleted : host.id ∈ s.completed := by
    rw [← hid, h.visits v hv]
    exact List.mem_toFinset.mpr (List.mem_map_of_mem hv)
  rw [queues] at hq
  split_ifs at hq with hin hroom
  · cases hq
  · rcases h.kept_or_farther hcompleted with hkept | ⟨hfull, -⟩
    · exact hin ((s.results.contains_iff _).mpr hkept)
    · omega
  · obtain ⟨far, hfar, hlt⟩ := Option.map_eq_some_iff.mp hq
    have hnear : s.dist host.id < far := by
      rcases hside with h' | h' | h'
      · exact absurd ((s.results.contains_iff _).mpr h') hin
      · exact absurd h' hroom
      · exact (h' far hfar).mp (of_decide_eq_true hlt)
    rcases h.kept_or_farther hcompleted with hkept | ⟨-, hfarther⟩
    · exact hin ((s.results.contains_iff _).mpr hkept)
    · exact lt_asymm hnear (hfarther far (List.mem_of_getLast? hfar))

theorem Faithful.step (h : Faithful s) {e : Event} (hhonest : Honest s e) (hs : Kad.step s e = some s') : Faithful s' := by
  refine ⟨h.toClosest.step hs, ?_, ?_⟩
  · cases step_cases hs with
    | start => exact fun v hv => absurd hv List.not_mem_nil
    | launch near _ =>
      rw [launch_eq]
      exact h.visits
    | take | leave | connected | failed | setStatus => exact h.visits
    | filtered t item rtn ht =>
      obtain ⟨status, th, -, heq⟩ := s.visited_fields t item rtn
      rw [heq]
      intro v hv
      rcases List.mem_cons.mp hv with rfl | hv
      · exact h.filtering _ (List.mem_of_getElem? ht) item rtn rfl
      · exact h.visits v hv
    | replied t hosts rtn limit s₁ _ hr =>
      obtain rfl := report_eq hr
      exact h.visits
  · have hset : ∀ {t : Nat} {th : Thread}, (∀ item rtn, th = .filtering item rtn → item.id = rtn) →
        ∀ th' ∈ s.threads.set t th, ∀ item rtn, th' = .filtering item rtn → item.id = rtn := by
      intro t th hth th' hth'
      rcases List.mem_or_eq_of_mem_set hth' with hold | rfl
      · exact h.filtering th' hold
      · exact hth
    cases step_cases hs with
    | start | setStatus => exact h.filtering
    | launch near _ =>
      rw [launch_eq]
      intro th hth item rtn heq
      rcases List.mem_append.mp hth with hth | hth
      · exact h.filtering th hth item rtn heq
      · rw [List.eq_of_mem_replicate hth] at heq
        cases heq
    | take | leave | failed => exact hset fun _ _ heq => by cases heq
    | connected t rtn item ht =>
      apply hset
      intro item' rtn' heq
      cases heq
      exact hhonest item ht
    | filtered t item rtn _ =>
      obtain ⟨status, th, hth, heq⟩ := s.visited_fields t item rtn
      rw [heq]
      refine hset fun _ _ heq => ?_
      rcases hth with rfl | ⟨l, rfl⟩ <;> cases heq
    | replied t hosts rtn limit s₁ _ hr =>
      obtain rfl := report_eq hr
      exact hset fun _ _ heq => by cases heq

/-- Where records have the ids of their nodes and reported hosts are judged as by their distance, no visited record is put
in the queue again. -/
theorem fresh_of_honest {n p : UInt32} {target : Sha1} {es : List Event}
    (hg : Guarded Kad.step Honest (create n p target) es) : Guarded Kad.step Fresh (create n p target) es := by
  refine guarded_of_invariant Faithful (fun s e s' h hh hs => h.step hh hs) ?_
    ⟨closest_create n p target, by simp [create], by simp [create]⟩ hg
  intro s e h hhonest
  cases e with
  | replied t hosts =>
    intro host hhost
    obtain ⟨hin, hq⟩ := List.mem_filter.mp hhost
    exact h.not_served (hhonest host hin) (of_decide_eq_true hq)
  | _ => trivial

/-! ### A record with another id than its node -/

def relabelled : Host := { id := 2, ep := {} }

/-- One iteration: the node is visited as 1 and reports the record again. -/
def round : List Event := [.take 0, .connected 0 1, .filtered 0, .replied 0 [relabelled]]

def afterRound (visits : List Visit) : Search where
  n := 2
  p := 1
  target := 0
  status := .searching
  queue := SortedMap.empty.insert 2 relabelled
  results := SortedMap.empty.insert 1 { id := 1, ep := {} }
  threads := [.loop]
  visits := visits

theorem run_round (visits : List Visit) :
    run Kad.step (afterRound visits) round = some (afterRound (⟨relabelled, 1⟩ :: visits)) := by
  simp [run, round, Kad.step, afterRound, relabelled, visited, addResult, setThread, report, queues, enqueue, dist,
    SortedMap.insertBounded, SortedMap.insert, SortedMap.eraseFirst, SortedMap.contains, SortedMap.size, SortedMap.empty, assign]

/-- A search that was started with the relabelled record, after `k` rounds. -/
def rounds (k : Nat) : List Event := [.start, .launch [relabelled]] ++ (List.replicate k round).flatten

theorem run_rounds (k : Nat) : ∃ s, run Kad.step (create 2 1 0) (rounds k) = some s := by
  cases k with
  | zero => exact ⟨_, rfl⟩
  | succ k =>
    have hmore : ∀ (k : Nat) (visits : List Visit),
        ∃ s, run Kad.step (afterRound visits) (List.replicate k round).flatten = some s := by
      intro k
      induction k with
      | zero => exact fun visits => ⟨_, rfl⟩
      | succ k ih =>
        intro visits
        obtain ⟨s, hs⟩ := ih (⟨relabelled, 1⟩ :: visits)
        rw [List.replicate_succ, List.flatten_cons]
        exact ⟨s, run_append_of (run_round visits) hs⟩
    have hfirst : run Kad.step (create 2 1 0) ([.start, .launch [relabelled]] ++ round) =
        some (afterRound [⟨relabelled, 1⟩]) := rfl
    obtain ⟨s, hs⟩ := hmore k [⟨relabelled, 1⟩]
    rw [rounds, List.replicate_succ, List.flatten_cons, ← List.append_assoc]
    exact ⟨s, run_append_of hfirst hs⟩

private theorem mem_rounds {k : Nat} {e : Event} (he : e ∈ rounds k) : e ∈ [.start, .launch [relabelled]] ++ round := by
  rcases List.mem_append.mp he with he | he
  · exact List.mem_append_left round he
  · obtain ⟨r, hr, he⟩ := List.mem_flatten.mp he
    obtain rfl := List.eq_of_mem_replicate hr
    exact List.mem_append_right _ he

/-- One record whose endpoint is that of another node, started once with one fiber: no number of iterations is enough. -/
theorem relabelled_forever : ¬ ∃ bound, ∀ es s, (∀ e ∈ es, ∀ h ∈ e.hosts, h = relabelled) →
    (∀ t rtn, Event.connected t rtn ∈ es → rtn = 1) → starts es = 1 → launches es = 1 →
      run Kad.step (create 2 1 0) es = some s → iterations es ≤ bound := by
  rintro ⟨bound, h⟩
  obtain ⟨s, hs⟩ := run_rounds (bound + 1)
  have hcount : iterations (rounds (bound + 1)) = bound + 1 := by
    simp [iterations, rounds, round, List.countP_flatten, List.map_replicate]
  have hle := h (rounds (bound + 1)) s ?_ ?_ ?_ ?_ hs
  · omega
  · intro e he
    have : ∀ e ∈ [.start, .launch [relabelled]] ++ round, ∀ h ∈ e.hosts, h = relabelled := by decide
    exact this e (mem_rounds he)
  · intro t rtn he
    have hmem := mem_rounds he
    simp only [round, List.cons_append, List.nil_append, List.mem_cons, List.not_mem_nil, reduceCtorEq, false_or, or_false,
      Event.connected.injEq] at hmem
    exact hmem.2
  · simp [starts, rounds, round, List.count_flatten, List.map_replicate]
  · simp [launches, rounds, round, List.countP_flatten, List.map_replicate]

end Search

end Tornet.Kad
