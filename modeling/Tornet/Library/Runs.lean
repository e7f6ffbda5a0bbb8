import Mathlib.Data.List.Basic

/-! Runs of a partial transition function, and the two induction rules every
safety argument uses: a plain invariant, and an invariant of guarded runs. -/
namespace Tornet.Library.Runs

variable {σ ε : Type*}

/-- Fold a partial step function over a list of events; a disabled event ends the run. -/
def run (step : σ → ε → Option σ) : σ → List ε → Option σ
  | s, [] => some s
  | s, e :: es => (step s e).bind fun t => run step t es

/-- Every step taken from `s` along `es` meets the guard in the state before it. -/
def Guarded (step : σ → ε → Option σ) (ok : σ → ε → Prop) : σ → List ε → Prop
  | _, [] => True
  | s, e :: es => ok s e ∧ ∀ t, step s e = some t → Guarded step ok t es

/-- Every step taken from `s` along `es` is related to the states around it. -/
def Always (step : σ → ε → Option σ) (R : σ → ε → σ → Prop) : σ → List ε → Prop
  | _, [] => True
  | s, e :: es => ∀ t, step s e = some t → R s e t ∧ Always step R t es

@[simp] theorem run_nil (step : σ → ε → Option σ) (s : σ) : run step s [] = some s := rfl

theorem run_cons {step : σ → ε → Option σ} {s u : σ} {e : ε} {es : List ε}
    (h : run step s (e :: es) = some u) : ∃ t, step s e = some t ∧ run step t es = some u :=
  Option.bind_eq_some_iff.mp h

/-- What holds after a step, where the step is known. -/
theorem forall_step {step : σ → ε → Option σ} {P : σ → Prop} {s t : σ} {e : ε} (ht : step s e = some t) :
    (∀ t', step s e = some t' → P t') ↔ P t := by
  rw [ht]
  exact ⟨fun h => h t rfl, fun h t' ht' => Option.some.inj ht' ▸ h⟩

theorem guarded_cons {step : σ → ε → Option σ} {ok : σ → ε → Prop} {s t : σ} {e : ε} {es : List ε}
    (ht : step s e = some t) : Guarded step ok s (e :: es) ↔ ok s e ∧ Guarded step ok t es :=
  and_congr_right fun _ => forall_step ht

theorem always_cons {step : σ → ε → Option σ} {R : σ → ε → σ → Prop} {s t : σ} {e : ε} {es : List ε}
    (ht : step s e = some t) : Always step R s (e :: es) ↔ R s e t ∧ Always step R t es :=
  forall_step ht

theorem run_append (step : σ → ε → Option σ) (s : σ) (es fs : List ε) :
    run step s (es ++ fs) = (run step s es).bind fun t => run step t fs := by
  induction es generalizing s with
  | nil => rfl
  | cons e es ih =>
    simp only [List.cons_append, run, Option.bind_assoc]
    congr 1
    funext t
    exact ih t

theorem run_append_of {step : σ → ε → Option σ} {s t u : σ} {es fs : List ε}
    (he : run step s es = some t) (hf : run step t fs = some u) :
    run step s (es ++ fs) = some u := by
  rw [run_append, he]
  exact hf

theorem run_snoc_of {step : σ → ε → Option σ} {s t u : σ} {es : List ε} {e : ε}
    (he : run step s es = some t) (hs : step t e = some u) :
    run step s (es ++ [e]) = some u :=
  run_append_of he (by simp [run, hs])

/-- A decidable guard can be checked along a run. -/
instance decidableGuarded (step : σ → ε → Option σ) (ok : σ → ε → Prop) [∀ s e, Decidable (ok s e)] :
    (s : σ) → (es : List ε) → Decidable (Guarded step ok s es)
  | _, [] => isTrue trivial
  | s, e :: es =>
    match h : step s e with
    | none => decidable_of_iff (ok s e) ⟨fun hk => ⟨hk, fun _ ht => nomatch h.symm.trans ht⟩, And.left⟩
    | some t =>
      have := decidableGuarded step ok t es
      decidable_of_iff (ok s e ∧ Guarded step ok t es)
        ⟨fun hk => ⟨hk.1, fun _ hu => Option.some.inj (h.symm.trans hu) ▸ hk.2⟩, fun hk => ⟨hk.1, hk.2 t h⟩⟩

/-- A predicate that every guarded step preserves holds at the end of every guarded run. -/
theorem invariant_of_guarded (inv : σ → Prop) {step : σ → ε → Option σ} {ok : σ → ε → Prop}
    (hstep : ∀ s e t, inv s → ok s e → step s e = some t → inv t)
    {s u : σ} {es : List ε} (hs : inv s) (hg : Guarded step ok s es)
    (hr : run step s es = some u) : inv u := by
  induction es generalizing s with
  | nil =>
    cases hr
    exact hs
  | cons e es ih =>
    obtain ⟨t, ht, hu⟩ := run_cons hr
    exact ih (hstep s e t hs hg.1 ht) (hg.2 t ht) hu

/-- What the predicate and the guard say of a state before a step holds along the whole run. -/
theorem guarded_of_invariant (inv : σ → Prop) {step : σ → ε → Option σ} {ok P : σ → ε → Prop}
    (hstep : ∀ s e t, inv s → ok s e → step s e = some t → inv t)
    (hP : ∀ s e, inv s → ok s e → P s e) {s : σ} {es : List ε} (hs : inv s)
    (hg : Guarded step ok s es) : Guarded step P s es := by
  induction es generalizing s with
  | nil => trivial
  | cons e es ih => exact ⟨hP s e hs hg.1, fun t ht => ih (hstep s e t hs hg.1 ht) (hg.2 t ht)⟩

/-- Where every guarded step from the predicate is enabled and keeps it, a guarded run goes
through to its end. -/
theorem progress_of_guarded (inv : σ → Prop) {step : σ → ε → Option σ} {ok : σ → ε → Prop}
    (hstep : ∀ s e, inv s → ok s e → ∃ t, step s e = some t ∧ inv t)
    {s : σ} {es : List ε} (hs : inv s) (hg : Guarded step ok s es) :
    ∃ u, run step s es = some u ∧ inv u := by
  induction es generalizing s with
  | nil => exact ⟨s, rfl, hs⟩
  | cons e es ih =>
    obtain ⟨t, ht, hinv⟩ := hstep s e hs hg.1
    obtain ⟨u, hu, hend⟩ := ih hinv (hg.2 t ht)
    exact ⟨u, by simp only [run, ht, Option.bind_some, hu], hend⟩

/-- What the predicate and the guard say of one step holds of every step of the run. -/
theorem always_of_guarded (inv : σ → Prop) {step : σ → ε → Option σ} {R : σ → ε → σ → Prop} {good : σ → ε → Prop}
    (hgood : ∀ s e t, inv s → good s e → step s e = some t → R s e t ∧ inv t) {s : σ} {es : List ε} (hs : inv s)
    (hg : Guarded step good s es) : Always step R s es := by
  induction es generalizing s with
  | nil => trivial
  | cons e es ih =>
    intro t ht
    obtain ⟨hR, hinv⟩ := hgood s e t hs hg.1 ht
    exact ⟨hR, ih hinv (hg.2 t ht)⟩

/-- What the events of a run amount to. -/
def total (cost : ε → Nat) : List ε → Nat
  | [] => 0
  | e :: es => cost e + total cost es

/-- An amortised bound: where each step costs at most what it takes from the weight and what it is given, all steps
together cost at most the first weight and all that is given. The invariant may count the events to come. -/
theorem cost_le_of_guarded (inv : σ → List ε → Prop) (weight : σ → Nat) (cost gain : ε → Nat)
    {step : σ → ε → Option σ} {ok : σ → ε → Prop}
    (hstep : ∀ s e es t, inv s (e :: es) → ok s e → step s e = some t →
      inv t es ∧ weight t + cost e ≤ weight s + gain e)
    {s u : σ} {es : List ε} (hs : inv s es) (hg : Guarded step ok s es) (hr : run step s es = some u) :
    total cost es ≤ weight s + total gain es := by
  induction es generalizing s with
  | nil => exact Nat.zero_le _
  | cons e es ih =>
    obtain ⟨t, ht, hu⟩ := run_cons hr
    obtain ⟨hinv, hpaid⟩ := hstep s e es t hs hg.1 ht
    have hrest := ih hinv (hg.2 t ht) hu
    rw [total, total]
    omega

/-- Along a run from an invariant that good steps keep, a relation holds of every step if and only
if every step meets the guard: a step that meets it is related, and any other step is not. -/
theorem always_iff_guarded (inv : σ → Prop) {step : σ → ε → Option σ} {R : σ → ε → σ → Prop}
    {good : σ → ε → Prop}
    (hgood : ∀ s e t, inv s → good s e → step s e = some t → R s e t ∧ inv t)
    (hbad : ∀ s e t, inv s → R s e t → step s e = some t → good s e)
    {s u : σ} {es : List ε} (hs : inv s) (hr : run step s es = some u) :
    Always step R s es ↔ Guarded step good s es := by
  induction es generalizing s with
  | nil => simp [Always, Guarded]
  | cons e es ih =>
    obtain ⟨t, ht, hu⟩ := run_cons hr
    rw [always_cons ht, guarded_cons ht]
    constructor
    · rintro ⟨hR, hrest⟩
      have he := hbad s e t hs hR ht
      exact ⟨he, (ih (hgood s e t hs he ht).2 hu).mp hrest⟩
    · rintro ⟨he, hrest⟩
      obtain ⟨hR, hinv⟩ := hgood s e t hs he ht
      exact ⟨hR, (ih hinv hu).mpr hrest⟩

/-- A guard that does not look at the state is met along a run if and only if all events meet it. -/
theorem guarded_iff_forall {step : σ → ε → Option σ} {good : ε → Prop} {s u : σ} {es : List ε}
    (hr : run step s es = some u) : Guarded step (fun _ e => good e) s es ↔ ∀ e ∈ es, good e := by
  induction es generalizing s with
  | nil => simp [Guarded]
  | cons e es ih =>
    obtain ⟨t, ht, hu⟩ := run_cons hr
    rw [List.forall_mem_cons, guarded_cons ht, ih hu]

/-- The rule for a condition on the events alone. -/
theorem always_iff (inv : σ → Prop) {step : σ → ε → Option σ} {R : σ → ε → σ → Prop} {good : ε → Prop}
    (hgood : ∀ s e t, inv s → good e → step s e = some t → R s e t ∧ inv t)
    (hbad : ∀ s e t, inv s → R s e t → step s e = some t → good e)
    {s u : σ} {es : List ε} (hs : inv s) (hr : run step s es = some u) :
    Always step R s es ↔ ∀ e ∈ es, good e :=
  (always_iff_guarded inv hgood hbad hs hr).trans (guarded_iff_forall hr)

theorem guarded_true (step : σ → ε → Option σ) (s : σ) (es : List ε) :
    Guarded step (fun _ _ => True) s es := by
  induction es generalizing s with
  | nil => trivial
  | cons e es ih => exact ⟨trivial, fun t _ => ih t⟩

theorem guarded_of_forall {step : σ → ε → Option σ} {ok : σ → ε → Prop} {s : σ} {es : List ε}
    (h : ∀ e ∈ es, ∀ t, ok t e) : Guarded step ok s es := by
  induction es generalizing s with
  | nil => trivial
  | cons e es ih =>
    exact ⟨h e List.mem_cons_self s, fun t _ => ih fun f hf => h f (List.mem_cons_of_mem e hf)⟩

theorem run_cons_of {step : σ → ε → Option σ} {s t u : σ} {e : ε} {es : List ε} (hs : step s e = some t)
    (hr : run step t es = some u) : run step s (e :: es) = some u := by
  rw [run, hs]
  exact hr

theorem Guarded.cons_of {step : σ → ε → Option σ} {ok : σ → ε → Prop} {s t : σ} {e : ε} {es : List ε} (he : ok s e)
    (hs : step s e = some t) (h : Guarded step ok t es) : Guarded step ok s (e :: es) :=
  (guarded_cons hs).mpr ⟨he, h⟩

theorem Guarded.append {step : σ → ε → Option σ} {ok : σ → ε → Prop} {s : σ} {es fs : List ε}
    (he : Guarded step ok s es) (hf : ∀ t, run step s es = some t → Guarded step ok t fs) :
    Guarded step ok s (es ++ fs) := by
  induction es generalizing s with
  | nil => exact hf s rfl
  | cons e es ih =>
    refine ⟨he.1, fun t ht => ih (he.2 t ht) fun u hu => hf u ?_⟩
    simp only [run, ht, Option.bind_some, hu]

theorem Guarded.of_append {step : σ → ε → Option σ} {ok : σ → ε → Prop} {s : σ} {es fs : List ε}
    (h : Guarded step ok s (es ++ fs)) :
    Guarded step ok s es ∧ ∀ t, run step s es = some t → Guarded step ok t fs := by
  induction es generalizing s with
  | nil =>
    refine ⟨trivial, fun t ht => ?_⟩
    cases ht
    exact h
  | cons e es ih =>
    refine ⟨⟨h.1, fun t ht => (ih (h.2 t ht)).1⟩, fun u hu => ?_⟩
    obtain ⟨t, ht, hrun⟩ := run_cons hu
    exact (ih (h.2 t ht)).2 u hrun

theorem Guarded.append_of {step : σ → ε → Option σ} {ok : σ → ε → Prop} {s t : σ} {es fs : List ε}
    (he : Guarded step ok s es) (hr : run step s es = some t) (hf : Guarded step ok t fs) :
    Guarded step ok s (es ++ fs) := by
  apply he.append
  intro t' ht'
  obtain rfl : t = t' := Option.some.inj (hr.symm.trans ht')
  exact hf

theorem Always.of_append {step : σ → ε → Option σ} {R : σ → ε → σ → Prop} {s t : σ} {es fs : List ε}
    (h : Always step R s (es ++ fs)) (hr : run step s es = some t) : Always step R t fs := by
  induction es generalizing s with
  | nil =>
    cases hr
    exact h
  | cons e es ih =>
    obtain ⟨u, hu, hrun⟩ := run_cons hr
    exact ih (h u hu).2 hrun

/-- The unguarded rule: a predicate preserved by every step is an invariant. -/
theorem invariant_of_step (inv : σ → Prop) {step : σ → ε → Option σ}
    (hstep : ∀ s e t, inv s → step s e = some t → inv t)
    {s u : σ} {es : List ε} (hs : inv s) (hr : run step s es = some u) : inv u :=
  invariant_of_guarded inv (fun s e t h (_ : True) => hstep s e t h) hs
    (guarded_true step s es) hr

/-- Simulation: where every step is matched by the events it stands for, a run is matched by all of them, in order. -/
theorem run_simulated {τ δ : Type*} (inv : σ → Prop) {step : σ → ε → Option σ} {ok : σ → ε → Prop}
    {spec : τ → δ → Option τ} (abs : σ → τ) (image : ε → Option δ)
    (hstep : ∀ s e t, inv s → ok s e → step s e = some t →
      inv t ∧ run spec (abs s) (image e).toList = some (abs t))
    {s u : σ} {es : List ε} (hs : inv s) (hg : Guarded step ok s es) (hr : run step s es = some u) :
    inv u ∧ run spec (abs s) (es.filterMap image) = some (abs u) := by
  induction es generalizing s with
  | nil =>
    cases hr
    exact ⟨hs, rfl⟩
  | cons e es ih =>
    obtain ⟨t, ht, hu⟩ := run_cons hr
    obtain ⟨hinv, hmatch⟩ := hstep s e t hs hg.1 ht
    obtain ⟨hend, hrest⟩ := ih hinv (hg.2 t ht) hu
    refine ⟨hend, ?_⟩
    cases he : image e with
    | none =>
      rw [he, Option.toList_none, run_nil] at hmatch
      rw [List.filterMap_cons_none he, Option.some.inj hmatch]
      exact hrest
    | some d =>
      rw [he, Option.toList_some] at hmatch
      rw [List.filterMap_cons_some he]
      exact run_append_of hmatch hrest

end Tornet.Library.Runs
